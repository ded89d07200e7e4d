import Opthash.Exact.Reduction

namespace Opthash.Probe

section Mixing

theorem mix64_injective : Function.Injective mix64 := by
  have hhigh := Words.xorShift_injective (k := 30) (by decide)
  have hmid := Words.xorShift_injective (k := 27) (by decide)
  have hlow := Words.xorShift_injective (k := 31) (by decide)
  have hfirst : (0xbf58476d1ce4e5b9 : UInt64) * 0x96de1b173f119089 = 1 := by decide
  have hsecond : (0x94d049bb133111eb : UInt64) * 0x319642b2d24d8ec3 = 1 := by decide
  have hmulFirst := Words.mul_injective_of_inverse hfirst
  have hmulSecond := Words.mul_injective_of_inverse hsecond
  exact hlow.comp (hmulSecond.comp (hmid.comp (hmulFirst.comp hhigh)))

theorem keyed_injective {keyIn keyOut c c' : UInt64} (h : mix64 (c ^^^ keyIn) ^^^ keyOut = mix64 (c' ^^^ keyIn) ^^^ keyOut) :
    c = c' :=
  (UInt64.xor_left_inj keyIn).mp (mix64_injective ((UInt64.xor_left_inj keyOut).mp h))

end Mixing

section Elastic

variable {level logical retry : Nat} {counter : UInt32}

theorem tryPackElasticCounter_none :
    tryPackElasticCounter level logical retry = none ↔
      ¬(level < elasticLevelLimit ∧ logical < elasticLogicalLimit ∧ retry < elasticRejectionLimit) := by
  rw [tryPackElasticCounter]
  split
  · simp only [true_iff]
    omega
  · simp only [reduceCtorEq, false_iff]
    omega

theorem tryPackElasticCounter_toNat (h : tryPackElasticCounter level logical retry = some counter) :
    (level < 2 ^ 5 ∧ logical < 2 ^ 13 ∧ retry < 2 ^ 3) ∧
      counter.toNat = level * 2 ^ 16 + logical * 2 ^ 3 + retry := by
  have hfits : level < 2 ^ 5 ∧ logical < 2 ^ 13 ∧ retry < 2 ^ 3 := by
    by_contra hout
    rw [tryPackElasticCounter_none.mpr hout] at h
    cases h
  obtain ⟨hlevel, hlogical, hretry⟩ := hfits
  have hin : ¬(level ≥ elasticLevelLimit ∨ logical ≥ elasticLogicalLimit ∨ retry ≥ elasticRejectionLimit) := by
    change ¬(level ≥ 2 ^ 5 ∨ logical ≥ 2 ^ 13 ∨ retry ≥ 2 ^ 3)
    omega
  rw [tryPackElasticCounter, if_neg hin] at h
  have hcounter := Option.some.inj h
  have htop : (UInt32.ofNat level <<< 16).toNat = level * 2 ^ 16 := by
    rw [UInt32.toNat_shiftLeft, UInt32.toNat_ofNat', Nat.shiftLeft_eq]
    change level % 2 ^ 32 * 2 ^ 16 % 2 ^ 32 = _
    omega
  have hmiddle : (UInt32.ofNat logical <<< 3).toNat = logical * 2 ^ 3 := by
    rw [UInt32.toNat_shiftLeft, UInt32.toNat_ofNat', Nat.shiftLeft_eq]
    change logical % 2 ^ 32 * 2 ^ 3 % 2 ^ 32 = _
    omega
  have hbottom : (UInt32.ofNat retry).toNat = retry := by
    rw [UInt32.toNat_ofNat']
    omega
  have hbase : level * 2 ^ 16 + logical * 2 ^ 3 = (level * 2 ^ 13 + logical) * 2 ^ 3 := by ring
  constructor
  · exact ⟨hlevel, hlogical, hretry⟩
  · rw [← hcounter, elasticCounterBase, UInt32.toNat_or, UInt32.toNat_or, htop, hmiddle, hbottom,
      Words.or_eq_add (k := 16) (by omega), hbase, Words.or_eq_add hretry]

theorem elasticCounterLevel_tryPack (h : tryPackElasticCounter level logical retry = some counter) :
    elasticCounterLevel counter = level := by
  obtain ⟨⟨hlevel, hlogical, hretry⟩, hcounter⟩ := tryPackElasticCounter_toNat h
  rw [elasticCounterLevel, UInt32.toNat_and, UInt32.toNat_shiftRight, hcounter, Nat.shiftRight_eq_div_pow]
  change (level * 2 ^ 16 + logical * 2 ^ 3 + retry) / 2 ^ 16 &&& (2 ^ 5 - 1) = level
  rw [Nat.and_two_pow_sub_one_eq_mod]
  omega

theorem elasticWord_injective {p : PreparedElasticProbe} {level' logical' retry' : Nat} {counter' : UInt32}
    (h : tryPackElasticCounter level logical retry = some counter)
    (h' : tryPackElasticCounter level' logical' retry' = some counter')
    (hword : p.wordFromPacked counter = p.wordFromPacked counter') :
    level = level' ∧ logical = logical' ∧ retry = retry' := by
  have hcounter : counter = counter' := by
    apply UInt32.toNat_inj.mp
    have hwide := congrArg UInt64.toNat (keyed_injective hword)
    rwa [UInt32.toNat_toUInt64, UInt32.toNat_toUInt64] at hwide
  obtain ⟨hfits, hsum⟩ := tryPackElasticCounter_toNat h
  obtain ⟨hfits', hsum'⟩ := tryPackElasticCounter_toNat h'
  rw [hcounter, hsum'] at hsum
  omega

end Elastic

section Funnel

def ProbeDomain.funnelField : ProbeDomain → Option (Nat × Nat)
  | .funnelOrdinary level => if level < funnelLevelLimit then some (0, level) else none
  | .funnelSpecialPrimary => some (1, 0)
  | .funnelSpecialFallbackChoiceA => some (2, 0)
  | .funnelSpecialFallbackChoiceB => some (3, 0)
  | .elasticOrdinary _ => none

def ProbeDomain.Supported : ProbeDomain → Prop
  | .funnelOrdinary level => level < funnelLevelLimit
  | .elasticOrdinary _ => False
  | _ => True

variable {domain domain' : ProbeDomain} {logical retry tag level : Nat} {counter base : UInt64}

theorem funnelField_bounds (h : domain.funnelField = some (tag, level)) : tag < 4 ∧ level < 2 ^ 46 := by
  cases domain with
  | elasticOrdinary l => cases h
  | funnelOrdinary l =>
    rw [ProbeDomain.funnelField] at h
    split at h
    · rename_i hl
      obtain ⟨rfl, rfl⟩ := Prod.mk.inj (Option.some.inj h)
      exact ⟨by decide, hl⟩
    · cases h
  | funnelSpecialPrimary =>
    obtain ⟨rfl, rfl⟩ := Prod.mk.inj (Option.some.inj h)
    decide
  | funnelSpecialFallbackChoiceA =>
    obtain ⟨rfl, rfl⟩ := Prod.mk.inj (Option.some.inj h)
    decide
  | funnelSpecialFallbackChoiceB =>
    obtain ⟨rfl, rfl⟩ := Prod.mk.inj (Option.some.inj h)
    decide

theorem funnelField_injective {f : Nat × Nat} (h : domain.funnelField = some f)
    (h' : domain'.funnelField = some f) : domain = domain' := by
  rw [← h'] at h
  cases domain <;> cases domain' <;> simp only [ProbeDomain.funnelField] at h h' <;> grind

theorem funnelField_none : domain.funnelField = none ↔ ¬domain.Supported := by
  cases domain <;> simp [ProbeDomain.funnelField, ProbeDomain.Supported]

theorem packFields_toNat (htag : tag < 4) (hlevel : level < 2 ^ 46) (hlogical : logical < 2 ^ 8)
    (hretry : retry < 2 ^ 8) :
    ((UInt64.ofNat tag <<< 62) ||| (UInt64.ofNat level <<< 16) ||| (UInt64.ofNat logical <<< 8) |||
      UInt64.ofNat retry).toNat = tag * 2 ^ 62 + level * 2 ^ 16 + logical * 2 ^ 8 + retry := by
  have hfour : (UInt64.ofNat tag <<< 62).toNat = tag * 2 ^ 62 := by
    rw [UInt64.toNat_shiftLeft, Words.toNat_ofNat_of_lt (by omega), Nat.shiftLeft_eq]
    change tag * 2 ^ 62 % 2 ^ 64 = _
    omega
  have hthree : (UInt64.ofNat level <<< 16).toNat = level * 2 ^ 16 := by
    rw [UInt64.toNat_shiftLeft, Words.toNat_ofNat_of_lt (by omega), Nat.shiftLeft_eq]
    change level * 2 ^ 16 % 2 ^ 64 = _
    omega
  have htwo : (UInt64.ofNat logical <<< 8).toNat = logical * 2 ^ 8 := by
    rw [UInt64.toNat_shiftLeft, Words.toNat_ofNat_of_lt (by omega), Nat.shiftLeft_eq]
    change logical * 2 ^ 8 % 2 ^ 64 = _
    omega
  have hhigh : tag * 2 ^ 62 + level * 2 ^ 16 = (tag * 2 ^ 46 + level) * 2 ^ 16 := by ring
  have hbase : (tag * 2 ^ 46 + level) * 2 ^ 16 + logical * 2 ^ 8 =
      ((tag * 2 ^ 46 + level) * 2 ^ 8 + logical) * 2 ^ 8 := by ring
  rw [UInt64.toNat_or, UInt64.toNat_or, UInt64.toNat_or, hfour, hthree, htwo, Words.toNat_ofNat_of_lt (by omega),
    Words.or_eq_add (k := 62) (by omega), hhigh, Words.or_eq_add (k := 16) (by omega), hbase, Words.or_eq_add hretry]

theorem tryPackFunnelCounter_field :
    tryPackFunnelCounter domain logical retry =
      if logical < funnelLogicalLimit ∧ retry < funnelRejectionLimit then
        domain.funnelField.map fun f => (UInt64.ofNat f.1 <<< 62) ||| (UInt64.ofNat f.2 <<< 16) |||
          (UInt64.ofNat logical <<< 8) ||| UInt64.ofNat retry
      else none := by
  rw [tryPackFunnelCounter]
  by_cases hfits : logical < funnelLogicalLimit ∧ retry < funnelRejectionLimit
  · rw [if_neg (by omega), if_pos hfits]
    cases domain with
    | funnelOrdinary level =>
      dsimp only [ProbeDomain.funnelField]
      split <;> rfl
    | _ => rfl
  · rw [if_pos (by omega), if_neg hfits]

theorem tryPackFunnelCounter_none :
    tryPackFunnelCounter domain logical retry = none ↔
      ¬(domain.Supported ∧ logical < funnelLogicalLimit ∧ retry < funnelRejectionLimit) := by
  rw [tryPackFunnelCounter_field]
  split
  · rename_i hfits
    rw [Option.map_eq_none_iff, funnelField_none]
    tauto
  · rename_i hfits
    tauto

theorem tryPackFunnelCounter_injective {logical' retry' : Nat}
    (h : tryPackFunnelCounter domain logical retry = some counter)
    (h' : tryPackFunnelCounter domain' logical' retry' = some counter) :
    domain = domain' ∧ logical = logical' ∧ retry = retry' := by
  rw [tryPackFunnelCounter_field] at h h'
  split at h
  · rename_i hfits
    split at h'
    · rename_i hfits'
      obtain ⟨⟨tag, level⟩, hfield, hcounter⟩ := Option.map_eq_some_iff.mp h
      obtain ⟨⟨tag', level'⟩, hfield', hcounter'⟩ := Option.map_eq_some_iff.mp h'
      obtain ⟨htag, hlevel⟩ := funnelField_bounds hfield
      obtain ⟨htag', hlevel'⟩ := funnelField_bounds hfield'
      have hsum := packFields_toNat htag hlevel hfits.1 hfits.2
      have hsum' := packFields_toNat htag' hlevel' hfits'.1 hfits'.2
      dsimp only at hcounter hcounter'
      rw [hcounter] at hsum
      rw [hcounter', hsum] at hsum'
      have hlogical : logical < 2 ^ 8 ∧ logical' < 2 ^ 8 := ⟨hfits.1, hfits'.1⟩
      have hretry : retry < 2 ^ 8 ∧ retry' < 2 ^ 8 := ⟨hfits.2, hfits'.2⟩
      have hsame : tag = tag' ∧ level = level' ∧ logical = logical' ∧ retry = retry' := by omega
      obtain ⟨rfl, rfl, rest⟩ := hsame
      exact ⟨funnelField_injective hfield hfield', rest⟩
    · cases h'
  · cases h

theorem funnelWord_injective {p : PreparedFastFunnelProbe} {base' : UInt64} {logical' retry' : Nat}
    (h : tryPackFunnelCounter domain 0 0 = some base) (h' : tryPackFunnelCounter domain' 0 0 = some base')
    (hlogical : logical < funnelLogicalLimit) (hlogical' : logical' < funnelLogicalLimit)
    (hretry : retry < funnelRejectionLimit) (hretry' : retry' < funnelRejectionLimit)
    (hword : (p.prepareCounterBase base).wordFromIndices logical retry =
      (p.prepareCounterBase base').wordFromIndices logical' retry') :
    domain = domain' ∧ logical = logical' ∧ retry = retry' := by
  have hcounter := keyed_injective hword
  apply tryPackFunnelCounter_injective (tryPackFunnelCounter_or h hlogical hretry)
  rw [tryPackFunnelCounter_or h' hlogical' hretry']
  exact congrArg some hcounter.symm

end Funnel

/-- For one key, distinct supported requests have distinct words. -/
theorem probe_words_distinct (seed keyHash : UInt64) :
    (∀ level logical retry counter level' logical' retry' counter',
      tryPackElasticCounter level logical retry = some counter →
      tryPackElasticCounter level' logical' retry' = some counter' →
      (prepareElastic seed keyHash).wordFromPacked counter = (prepareElastic seed keyHash).wordFromPacked counter' →
      level = level' ∧ logical = logical' ∧ retry = retry') ∧
    (∀ domain base logical retry domain' base' logical' retry',
      tryPackFunnelCounter domain 0 0 = some base → tryPackFunnelCounter domain' 0 0 = some base' →
      logical < funnelLogicalLimit → retry < funnelRejectionLimit →
      logical' < funnelLogicalLimit → retry' < funnelRejectionLimit →
      ((prepareFunnel seed keyHash).prepareCounterBase base).wordFromIndices logical retry =
        ((prepareFunnel seed keyHash).prepareCounterBase base').wordFromIndices logical' retry' →
      domain = domain' ∧ logical = logical' ∧ retry = retry') ∧
    (∀ level logical retry, tryPackElasticCounter level logical retry = none ↔
      ¬(level < elasticLevelLimit ∧ logical < elasticLogicalLimit ∧ retry < elasticRejectionLimit)) ∧
    (∀ domain logical retry, tryPackFunnelCounter domain logical retry = none ↔
      ¬(domain.Supported ∧ logical < funnelLogicalLimit ∧ retry < funnelRejectionLimit)) ∧
    (∀ level logical retry counter, tryPackElasticCounter level logical retry = some counter →
      elasticCounterLevel counter = level) := by
  constructor
  · intro level logical retry counter level' logical' retry' counter' h h' hword
    exact elasticWord_injective h h' hword
  constructor
  · intro domain base logical retry domain' base' logical' retry' h h' hlogical hretry hlogical' hretry' hword
    exact funnelWord_injective h h' hlogical hlogical' hretry hretry' hword
  constructor
  · intro level logical retry
    exact tryPackElasticCounter_none
  constructor
  · intro domain logical retry
    exact tryPackFunnelCounter_none
  · intro level logical retry counter h
    exact elasticCounterLevel_tryPack h

end Opthash.Probe
