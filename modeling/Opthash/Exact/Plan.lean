import Mathlib.Data.Nat.Log
import Mathlib.Tactic.Tauto
import Mathlib.Tactic.Ring
import Mathlib.Tactic.Linarith
import Opthash.Exact.Counts

namespace Opthash.Geometry

open Probe (bitLength)

section Logarithms

theorem ceilLog2_le_iff {value bits : Nat} : ceilLog2 value ≤ bits ↔ value ≤ 2 ^ bits := by
  unfold ceilLog2 bitLength
  have hpos := Nat.two_pow_pos bits
  split
  · omega
  · rw [if_neg (by omega), Nat.succ_le_iff, Nat.log2_lt (by omega)]
    omega

theorem ceilLog2_eq (value : Nat) : ceilLog2 value = Nat.clog 2 value := by
  apply Nat.le_antisymm
  · exact ceilLog2_le_iff.mpr (Nat.le_pow_clog Nat.one_lt_two value)
  · exact Nat.clog_le_of_le_pow (ceilLog2_le_iff.mp (Nat.le_refl _))

theorem baseTwoLoglogCeiling_eq (n : Nat) : baseTwoLoglogCeiling n = max 1 (Nat.clog 2 (Nat.clog 2 n)) := by
  unfold baseTwoLoglogCeiling
  rw [ceilLog2_eq, ceilLog2_eq]
  dsimp only
  split <;> omega

theorem baseTwoLoglogCeiling_pos (n : Nat) : 0 < baseTwoLoglogCeiling n := by
  rw [baseTwoLoglogCeiling_eq]
  exact Nat.lt_of_lt_of_le Nat.one_pos (Nat.le_max_left ..)

theorem baseTwoLoglogCeiling_mono : Monotone baseTwoLoglogCeiling := by
  intro a b h
  rw [baseTwoLoglogCeiling_eq, baseTwoLoglogCeiling_eq]
  have := Nat.clog_mono_right 2 (Nat.clog_mono_right 2 h)
  omega

theorem ceilDivPow2_eq {n exponent : Nat} (hpos : 0 < n) (hn : n ≤ usizeMax) :
    ceilDivPow2 n exponent = (n + 2 ^ exponent - 1) / 2 ^ exponent := by
  have htwo := Nat.two_pow_pos exponent
  unfold ceilDivPow2
  rw [if_neg (Nat.ne_of_gt hpos)]
  split
  · rename_i hlarge
    have hpow : 2 ^ 128 ≤ 2 ^ exponent := Nat.pow_le_pow_right Nat.two_pos hlarge
    unfold usizeMax at hn
    refine (Nat.div_eq_of_lt_le ?_ ?_).symm
    · omega
    · omega
  · have hdiv := Nat.div_add_mod n (2 ^ exponent)
    have hmod := Nat.mod_lt n htwo
    generalize hq : n / 2 ^ exponent = quotient at hdiv ⊢
    generalize n % 2 ^ exponent = rest at hdiv hmod ⊢
    generalize 2 ^ exponent = power at htwo hdiv hmod ⊢
    subst hdiv
    split
    · rename_i hzero
      rw [hzero, Nat.add_zero, Nat.add_zero]
      refine (Nat.div_eq_of_lt_le ?_ ?_).symm
      · rw [Nat.mul_comm]
        omega
      · rw [Nat.add_mul, Nat.mul_comm]
        omega
    · refine (Nat.div_eq_of_lt_le ?_ ?_).symm
      · rw [Nat.add_mul, Nat.mul_comm]
        omega
      · rw [Nat.add_mul, Nat.add_mul, Nat.mul_comm]
        omega

theorem floorThreeDivPow2_eq {n exponent : Nat} (hn : n ≤ usizeMax) :
    floorThreeDivPow2 n exponent = 3 * n / 2 ^ exponent := by
  unfold floorThreeDivPow2
  split
  · rename_i hlarge
    have hpow : 2 ^ 128 ≤ 2 ^ exponent := Nat.pow_le_pow_right Nat.two_pos hlarge
    unfold usizeMax at hn
    exact (Nat.div_eq_of_lt (by omega)).symm
  · rw [Nat.shiftRight_eq_div_pow, Nat.mul_comm]

end Logarithms

section Special

variable {n beta width alpha maximumMain steps mainLen : Nat}

/-- The special array that goes with a main array of `mainLen` slots has a whole number of fallback buckets. -/
def Fits (n width mainLen : Nat) : Prop := width ≤ (n - mainLen) / 2 ∧ (n - mainLen) / 2 % width = 0

instance : Decidable (Fits n width mainLen) := inferInstanceAs (Decidable (_ ∧ _))

theorem compatibleMainLen_spec (hbeta : 0 < beta) (halpha : 0 < alpha) (hmain : alpha * beta ≤ mainLen)
    (hmaximum : maximumMain ≤ n) (hn : n ≤ usizeMax) :
    compatibleMainLen n beta width alpha maximumMain steps mainLen = none ∧
        (∀ k < steps, mainLen + k * beta ≤ maximumMain → ¬Fits n width (mainLen + k * beta)) ∨
      ∃ k < steps, ∃ first, compatibleMainLen n beta width alpha maximumMain steps mainLen =
          some (n - (mainLen + k * beta), first) ∧
        mainLen + k * beta ≤ maximumMain ∧ Fits n width (mainLen + k * beta) ∧
        (∀ j < k, ¬Fits n width (mainLen + j * beta)) ∧ Attains alpha ((mainLen + k * beta) / beta) first := by
  induction steps generalizing mainLen with
  | zero => exact .inl ⟨rfl, fun k hk => absurd hk (Nat.not_lt_zero k)⟩
  | succ steps ih =>
    rw [compatibleMainLen]
    by_cases hover : mainLen > maximumMain
    · rw [if_pos hover]
      refine .inl ⟨rfl, fun k _ hk => absurd hk ?_⟩
      have := Nat.le_add_right mainLen (k * beta)
      omega
    · rw [if_neg hover]
      dsimp only
      by_cases hfits : Fits n width mainLen
      · have hrule : (n - mainLen) / 2 ≥ width ∧ (n - mainLen) / 2 % width = 0 := hfits
        rw [if_pos hrule]
        have hle : alpha ≤ mainLen / beta := (Nat.le_div_iff_mul_le hbeta).mpr hmain
        have htotal : mainLen / beta ≤ usizeMax := Nat.le_trans (Nat.div_le_self ..) (by omega)
        obtain ⟨first, hfirst, hattains, -⟩ := nearestFeasibleFirstCount_spec halpha hle htotal
        refine .inr ⟨0, Nat.succ_pos _, first, ?_, ?_, ?_, fun j hj => absurd hj (Nat.not_lt_zero j), ?_⟩
        · rw [hfirst, Nat.zero_mul, Nat.add_zero]
          rfl
        · omega
        · rwa [Nat.zero_mul, Nat.add_zero]
        · rwa [Nat.zero_mul, Nat.add_zero]
      · have hrule : ¬((n - mainLen) / 2 ≥ width ∧ (n - mainLen) / 2 % width = 0) := hfits
        rw [if_neg hrule]
        have hshift : ∀ k, mainLen + (k + 1) * beta = mainLen + beta + k * beta := fun k => by
          rw [Nat.add_mul, Nat.one_mul]
          omega
        by_cases hfit : mainLen + beta ≤ usizeMax
        · rw [checkedUsize, if_pos hfit]
          dsimp only
          rcases @ih (mainLen + beta) (by omega) with ⟨hnone, hall⟩ | ⟨k, hk, first, hsome, hle, hgood, hbefore, hattains⟩
          · refine .inl ⟨hnone, fun k hk hle => ?_⟩
            cases k with
            | zero => rwa [Nat.zero_mul, Nat.add_zero]
            | succ k =>
              rw [hshift] at hle ⊢
              exact hall k (by omega) hle
          · refine .inr ⟨k + 1, by omega, first, ?_, ?_, ?_, fun j hj => ?_, ?_⟩
            · rw [hshift, hsome]
            · rwa [hshift]
            · rwa [hshift]
            · cases j with
              | zero => rwa [Nat.zero_mul, Nat.add_zero]
              | succ j =>
                rw [hshift]
                exact hbefore j (by omega)
            · rwa [hshift]
        · rw [checkedUsize, if_neg hfit]
          refine .inl ⟨rfl, fun k _ hk => ?_⟩
          cases k with
          | zero => rwa [Nat.zero_mul, Nat.add_zero]
          | succ k =>
            rw [hshift] at hk
            have := Nat.le_add_right (mainLen + beta) (k * beta)
            omega

theorem Fits.earlier {cycle k : Nat} (hcycle : 2 * width ∣ cycle * beta) (hk : cycle ≤ k)
    (hle : mainLen + k * beta ≤ n) (h : Fits n width (mainLen + k * beta)) :
    Fits n width (mainLen + (k - cycle) * beta) := by
  obtain ⟨hwidth, hmod⟩ := h
  obtain ⟨turns, hturns⟩ := hcycle
  have hsplit : k * beta = (k - cycle) * beta + cycle * beta := by
    rw [← Nat.add_mul]
    congr 1
    omega
  have hlonger : n - (mainLen + (k - cycle) * beta) = n - (mainLen + k * beta) + 2 * width * turns := by
    rw [← hturns]
    omega
  refine ⟨?_, ?_⟩
  · rw [hlonger]
    omega
  · rw [hlonger, Nat.mul_assoc, Nat.add_mul_div_left _ _ Nat.two_pos, Nat.add_mul_mod_self_left]
    exact hmod

theorem Fits.first {cycle k : Nat} (hcycle : 2 * width ∣ cycle * beta) (hpos : 0 < cycle)
    (hle : mainLen + k * beta ≤ n) (h : Fits n width (mainLen + k * beta)) :
    ∃ j < cycle, j ≤ k ∧ Fits n width (mainLen + j * beta) := by
  induction k using Nat.strong_induction_on with
  | _ k ih =>
    rcases Nat.lt_or_ge k cycle with hlt | hge
    · exact ⟨k, hlt, Nat.le_refl _, h⟩
    · have hmul : (k - cycle) * beta ≤ k * beta := Nat.mul_le_mul_right _ (Nat.sub_le ..)
      obtain ⟨j, hj, hjk, hfits⟩ := ih (k - cycle) (by omega) (by omega) (h.earlier hcycle hge hle)
      exact ⟨j, hj, by omega, hfits⟩

/-- A special array of `special` slots suits the plan's bounds and bucket widths. -/
structure Admissible (n lower upper alpha beta width special : Nat) : Prop where
  lower : lower ≤ special
  upper : special ≤ upper
  le : special ≤ n
  main : beta ∣ n - special
  levels : alpha ≤ (n - special) / beta
  buckets : width ∣ special / 2
  bucket : width ≤ special / 2

theorem largestCompatibleSpecialLayout_eq {lower upper : Nat} (hmain : alpha * beta ≤ n) (hn : n ≤ usizeMax)
    (hperiod : width * 2 ≤ usizeMax) :
    largestCompatibleSpecialLayout n lower upper alpha beta width =
      if max lower (width * 2) > min upper (n - alpha * beta) then none
      else if (n - min upper (n - alpha * beta)) / beta +
          (if (n - min upper (n - alpha * beta)) % beta = 0 then 0 else 1) > (n - max lower (width * 2)) / beta then none
      else (checkedUsize (((n - min upper (n - alpha * beta)) / beta +
          if (n - min upper (n - alpha * beta)) % beta = 0 then 0 else 1) * beta)).bind
        (compatibleMainLen n beta width alpha (n - max lower (width * 2)) (width * 2 / Nat.gcd beta (width * 2))) := by
  have hminimum : checkedUsize (alpha * beta) = some (alpha * beta) := if_pos (Nat.le_trans hmain hn)
  have hwidths : checkedUsize (width * 2) = some (width * 2) := if_pos hperiod
  unfold largestCompatibleSpecialLayout
  rw [hminimum]
  simp only [Option.bind_eq_bind, Option.bind_some, if_neg (Nat.not_lt.mpr hmain), hwidths]
  split
  · rfl
  · split <;> rfl

theorem ceilMultiple_le_iff (hbeta : 0 < beta) {length multiple : Nat} :
    length / beta + (if length % beta = 0 then 0 else 1) ≤ multiple ↔ length ≤ multiple * beta := by
  have hdiv := Nat.div_add_mod length beta
  have hmod := Nat.mod_lt length hbeta
  have hstep : length / beta + 1 ≤ multiple ↔ (length / beta + 1) * beta ≤ multiple * beta :=
    (Nat.mul_le_mul_right_iff hbeta).symm
  have hsame : length / beta ≤ multiple ↔ length / beta * beta ≤ multiple * beta :=
    (Nat.mul_le_mul_right_iff hbeta).symm
  rw [Nat.add_mul, Nat.one_mul] at hstep
  rw [Nat.mul_comm] at hdiv
  split
  · omega
  · rw [hstep]
    constructor
    · omega
    · intro hle
      by_contra hgt
      -- Nothing lies between two neighbouring multiples.
      have hbetween : multiple ≤ length / beta := by
        by_contra hlarge
        have := (hstep.mp (Nat.lt_of_not_le hlarge))
        omega
      have := Nat.mul_le_mul_right beta hbetween
      omega

theorem largestCompatibleSpecialLayout_spec {lower upper : Nat} (hbeta : 0 < beta) (halpha : 0 < alpha)
    (hwidth : 0 < width) (hn : n ≤ usizeMax) (hperiod : width * 2 ≤ usizeMax) :
    largestCompatibleSpecialLayout n lower upper alpha beta width = none ∧
        (∀ special, ¬Admissible n lower upper alpha beta width special) ∨
      ∃ special first, largestCompatibleSpecialLayout n lower upper alpha beta width = some (special, first) ∧
        Admissible n lower upper alpha beta width special ∧
        (∀ other, Admissible n lower upper alpha beta width other → other ≤ special) ∧
        Attains alpha ((n - special) / beta) first := by
  have hmain : ∀ {special}, Admissible n lower upper alpha beta width special → alpha * beta ≤ n - special :=
    fun h => (Nat.le_div_iff_mul_le hbeta).mp h.levels
  by_cases hshort : alpha * beta ≤ n
  swap
  · refine .inl ⟨?_, fun special h => ?_⟩
    · unfold largestCompatibleSpecialLayout checkedUsize
      by_cases hover : alpha * beta ≤ usizeMax
      · rw [if_pos hover]
        simp [Nat.lt_of_not_le hshort]
      · rw [if_neg hover]
        rfl
    · have := hmain h
      have := Nat.sub_le n special
      omega
  rw [largestCompatibleSpecialLayout_eq hshort hn hperiod]
  generalize hminimum : max lower (width * 2) = minimumSpecial
  generalize hmaximum : min upper (n - alpha * beta) = maximumSpecial
  generalize hmultiple : (n - maximumSpecial) / beta + (if (n - maximumSpecial) % beta = 0 then 0 else 1) = multiple
  have hceil : ∀ t, multiple ≤ t ↔ n - maximumSpecial ≤ t * beta := by
    intro t
    rw [← hmultiple]
    exact ceilMultiple_le_iff hbeta
  -- The main array of an admissible layout is a later multiple of `beta`, and fits.
  have hmultiples : ∀ {special}, Admissible n lower upper alpha beta width special →
      ∃ k, n - special = multiple * beta + k * beta ∧ multiple * beta + k * beta ≤ n - minimumSpecial ∧
        Fits n width (multiple * beta + k * beta) := by
    intro special h
    obtain ⟨t, ht⟩ := h.main
    have := hmain h
    have := h.lower
    have := h.upper
    have := h.bucket
    have := h.le
    rw [Nat.mul_comm] at ht
    have hle : multiple ≤ t := (hceil t).mpr (by omega)
    have hsplit : t * beta = multiple * beta + (t - multiple) * beta := by
      rw [← Nat.add_mul]
      congr 1
      omega
    refine ⟨t - multiple, by omega, by omega, ?_⟩
    have hspecial : n - (multiple * beta + (t - multiple) * beta) = special := by omega
    rw [Fits, hspecial]
    exact ⟨h.bucket, Nat.mod_eq_zero_of_dvd h.buckets⟩
  by_cases hempty : minimumSpecial > maximumSpecial
  · refine .inl ⟨if_pos hempty, fun special h => ?_⟩
    have := hmain h
    have := h.lower
    have := h.upper
    have := h.bucket
    have := h.le
    omega
  rw [if_neg hempty]
  by_cases hbeyond : multiple > (n - minimumSpecial) / beta
  · refine .inl ⟨if_pos hbeyond, fun special h => ?_⟩
    obtain ⟨k, -, hle, -⟩ := hmultiples h
    rw [gt_iff_lt, Nat.div_lt_iff_lt_mul hbeta] at hbeyond
    omega
  rw [if_neg hbeyond]
  have hstart : multiple * beta ≤ n - minimumSpecial := (Nat.le_div_iff_mul_le hbeta).mp (Nat.le_of_not_lt hbeyond)
  have hfirst : n - maximumSpecial ≤ multiple * beta := (hceil multiple).mp (Nat.le_refl _)
  have hchecked : checkedUsize (multiple * beta) = some (multiple * beta) := if_pos (by omega)
  rw [hchecked, Option.bind_some]
  have hgcd : 0 < Nat.gcd beta (width * 2) := Nat.gcd_pos_of_pos_left _ hbeta
  have hcyclepos : 0 < width * 2 / Nat.gcd beta (width * 2) :=
    Nat.div_pos (Nat.le_of_dvd (by omega) (Nat.gcd_dvd_right ..)) hgcd
  have hcycle : 2 * width ∣ width * 2 / Nat.gcd beta (width * 2) * beta := by
    refine ⟨beta / Nat.gcd beta (width * 2), ?_⟩
    rw [Nat.mul_comm 2 width, Nat.div_mul_right_comm (Nat.gcd_dvd_right ..), Nat.mul_div_assoc _ (Nat.gcd_dvd_left ..)]
  have hlevels : alpha * beta ≤ multiple * beta := by omega
  rcases @compatibleMainLen_spec n beta width alpha (n - minimumSpecial) (width * 2 / Nat.gcd beta (width * 2))
      (multiple * beta) hbeta halpha hlevels (Nat.sub_le ..) hn with
    ⟨hnone, hall⟩ | ⟨k, hk, first, hsome, hle, hfits, hbefore, hattains⟩
  · refine .inl ⟨hnone, fun special h => ?_⟩
    obtain ⟨k, -, hle, hfits⟩ := hmultiples h
    obtain ⟨j, hj, hjk, hfits⟩ := hfits.first hcycle hcyclepos (by omega)
    have := Nat.mul_le_mul_right beta hjk
    exact hall j hj (by omega) hfits
  · refine .inr ⟨_, first, hsome, ?_, fun other h => ?_, ?_⟩
    · have hrest : n - (n - (multiple * beta + k * beta)) = multiple * beta + k * beta := by omega
      refine ⟨by omega, by omega, Nat.sub_le .., ?_, ?_, Nat.dvd_of_mod_eq_zero hfits.2, hfits.1⟩
      · rw [hrest, ← Nat.add_mul]
        exact Nat.dvd_mul_left ..
      · rw [hrest, Nat.le_div_iff_mul_le hbeta]
        omega
    · obtain ⟨k', hother, hle', hfits'⟩ := hmultiples h
      obtain ⟨j, hj, hjk, hfits''⟩ := hfits'.first hcycle hcyclepos (by omega)
      have hkj : k ≤ j := by
        by_contra hlt
        exact hbefore j (by omega) hfits''
      have := Nat.mul_le_mul_right beta (Nat.le_trans hkj hjk)
      have := h.le
      omega
    · have hrest : n - (n - (multiple * beta + k * beta)) = multiple * beta + k * beta := by omega
      rwa [hrest]

end Special

def Compatible (n reserveExponent special : Nat) : Prop :=
  Admissible n ((n + 2 ^ (reserveExponent + 1) - 1) / 2 ^ (reserveExponent + 1)) (3 * n / 2 ^ (reserveExponent + 2))
    (4 * reserveExponent + 10) (2 * reserveExponent) (2 * max 1 (Nat.clog 2 (Nat.clog 2 n))) special

namespace FunnelPlan

/-- The arrays of a plan cover all slots, and each bucket count is about three quarters of the one before. -/
structure Tiles (p : FunnelPlan) : Prop where
  levels : p.ordinaryBucketCounts.length = p.alpha
  pos : ∀ count ∈ p.ordinaryBucketCounts, 0 < count
  steps : p.ordinaryBucketCounts.IsChain fun count next : Nat => next ≤ count ∧ |4 * (next : Int) - 3 * count| ≤ 4
  total : p.beta * p.ordinaryBucketCounts.sum + p.specialPrimaryLen + p.fallbackBucketCount * p.fallbackBucketWidth =
    p.config.n

end FunnelPlan

section Planning

variable {n d : Nat}

theorem baseTwoLoglogCeiling_le (hn : n ≤ usizeMax) : baseTwoLoglogCeiling n ≤ 6 := by
  have hlog : ceilLog2 n ≤ 64 := ceilLog2_le_iff.mpr (by unfold usizeMax at hn; omega)
  have hloglog : ceilLog2 (ceilLog2 n) ≤ 6 := ceilLog2_le_iff.mpr hlog
  unfold baseTwoLoglogCeiling
  dsimp only
  split <;> omega

theorem funnelPlan_eq (hn : 2 ≤ n) (hsize : n ≤ usizeMax) (hd : 3 ≤ d) (halpha : 4 * d + 10 ≤ usizeMax) :
    PaperConfig.funnelPlan ⟨n, d⟩ =
      match largestCompatibleSpecialLayout n ((n + 2 ^ (d + 1) - 1) / 2 ^ (d + 1)) (3 * n / 2 ^ (d + 2)) (4 * d + 10)
        (2 * d) (2 * baseTwoLoglogCeiling n) with
      | none => .error (.noCompatibleSpecialLayout ((n + 2 ^ (d + 1) - 1) / 2 ^ (d + 1)) (3 * n / 2 ^ (d + 2)) (2 * d)
          (baseTwoLoglogCeiling n) (2 * baseTwoLoglogCeiling n))
      | some (specialLen, firstBucketCount) => .ok ⟨⟨n, d⟩, 4 * d + 10, 2 * d, baseTwoLoglogCeiling n,
          2 * baseTwoLoglogCeiling n, specialLen, firstBucketCount⟩ := by
  have hfirst : checkedUsize (d * 4 + 10) = some (4 * d + 10) := by
    rw [Nat.mul_comm]
    exact if_pos halpha
  have hsecond : checkedUsize (d * 2) = some (2 * d) := by
    rw [Nat.mul_comm]
    exact if_pos (by omega)
  unfold PaperConfig.funnelPlan
  dsimp only
  rw [if_neg (by omega), hfirst, hsecond]
  dsimp only
  cases hlayout : largestCompatibleSpecialLayout n ((n + 2 ^ (d + 1) - 1) / 2 ^ (d + 1)) (3 * n / 2 ^ (d + 2))
    (4 * d + 10) (2 * d) (2 * baseTwoLoglogCeiling n) with
  | none => simp only [ceilDivPow2_eq (by omega) hsize, floorThreeDivPow2_eq hsize, hlayout]
  | some layout => simp only [ceilDivPow2_eq (by omega) hsize, floorThreeDivPow2_eq hsize, hlayout]

theorem tiles_of_attains {first special : Nat} (hsize : n ≤ usizeMax) (h : Compatible n d special)
    (hattains : Attains (4 * d + 10) ((n - special) / (2 * d)) first) :
    FunnelPlan.Tiles ⟨⟨n, d⟩, 4 * d + 10, 2 * d, baseTwoLoglogCeiling n, 2 * baseTwoLoglogCeiling n, special, first⟩ := by
  have htotal : (n - special) / (2 * d) ≤ usizeMax := Nat.le_trans (Nat.div_le_self ..) (by omega)
  obtain ⟨counts, htake, hlength, -, hsum, hpos, hchain⟩ := take_spec (Nat.succ_pos _) htotal hattains
  have hitems : FunnelPlan.ordinaryBucketCounts
      ⟨⟨n, d⟩, 4 * d + 10, 2 * d, baseTwoLoglogCeiling n, 2 * baseTwoLoglogCeiling n, special, first⟩ = counts := by
    unfold FunnelPlan.ordinaryBucketCounts FunnelBucketCounts.items
    dsimp only
    rw [htake]
  have hmain := Nat.mul_div_cancel' h.main
  have hbuckets := h.buckets
  rw [← baseTwoLoglogCeiling_eq] at hbuckets
  have hfallback := Nat.div_mul_cancel hbuckets
  refine ⟨?_, ?_, ?_, ?_⟩
  · rw [hitems, hlength]
  · rwa [hitems]
  · rw [hitems]
    exact hchain.imp fun _ _ h => ⟨h.le, h.near⟩
  · rw [hitems, hsum]
    simp only [FunnelPlan.specialPrimaryLen, FunnelPlan.fallbackBucketCount, FunnelPlan.specialFallbackLen]
    rw [hmain, hfallback]
    have := h.le
    omega

theorem largestSpecial_spec (hsize : n ≤ usizeMax) (hd : 3 ≤ d) :
    let layout := largestCompatibleSpecialLayout n ((n + 2 ^ (d + 1) - 1) / 2 ^ (d + 1)) (3 * n / 2 ^ (d + 2)) (4 * d + 10)
      (2 * d) (2 * baseTwoLoglogCeiling n)
    (layout = none ∧ ∀ special, ¬Compatible n d special) ∨
      ∃ special first, layout = some (special, first) ∧ Compatible n d special ∧
        (∀ special', Compatible n d special' → special' ≤ special) ∧ Attains (4 * d + 10) ((n - special) / (2 * d)) first := by
  have hloglog := baseTwoLoglogCeiling_le hsize
  have hloglogpos := baseTwoLoglogCeiling_pos n
  have hwidth : 2 * baseTwoLoglogCeiling n * 2 ≤ usizeMax := by
    unfold usizeMax
    omega
  have hspec := @largestCompatibleSpecialLayout_spec n (2 * d) (2 * baseTwoLoglogCeiling n) (4 * d + 10)
    ((n + 2 ^ (d + 1) - 1) / 2 ^ (d + 1)) (3 * n / 2 ^ (d + 2)) (by omega) (by omega) (by omega) hsize hwidth
  have hcompatible : ∀ special, Admissible n ((n + 2 ^ (d + 1) - 1) / 2 ^ (d + 1)) (3 * n / 2 ^ (d + 2)) (4 * d + 10)
      (2 * d) (2 * baseTwoLoglogCeiling n) special ↔ Compatible n d special := by
    intro special
    rw [baseTwoLoglogCeiling_eq]
    rfl
  simp only [hcompatible] at hspec
  exact hspec

theorem planned_iff (hn : 2 ≤ n) (hsize : n ≤ usizeMax) (hd : 3 ≤ d) (halpha : 4 * d + 10 ≤ usizeMax) :
    (∃ p, PaperConfig.funnelPlan ⟨n, d⟩ = .ok p) ↔ ∃ special, Compatible n d special := by
  rw [funnelPlan_eq hn hsize hd halpha]
  rcases largestSpecial_spec hsize hd with ⟨hnone, hall⟩ | ⟨special, first, hsome, hspecial, -, -⟩
  · rw [hnone]
    refine ⟨?_, fun ⟨special, h⟩ => absurd h (hall special)⟩
    rintro ⟨_, h⟩
    cases h
  · rw [hsome]
    exact ⟨fun _ => ⟨special, hspecial⟩, fun _ => ⟨_, rfl⟩⟩

theorem funnelPlan_spec (hn : 2 ≤ n) (hsize : n ≤ usizeMax) (hd : 3 ≤ d) (halpha : 4 * d + 10 ≤ usizeMax) {p : FunnelPlan}
    (h : PaperConfig.funnelPlan ⟨n, d⟩ = .ok p) :
    (p.config = ⟨n, d⟩ ∧ p.alpha = 4 * d + 10 ∧ p.beta = 2 * d ∧ p.loglogCeiling = baseTwoLoglogCeiling n ∧
      p.fallbackBucketWidth = 2 * baseTwoLoglogCeiling n) ∧
    Compatible n d p.specialLen ∧ (∀ special, Compatible n d special → special ≤ p.specialLen) ∧ p.Tiles := by
  rw [funnelPlan_eq hn hsize hd halpha] at h
  rcases largestSpecial_spec hsize hd with ⟨hnone, -⟩ | ⟨special, first, hsome, hspecial, hlargest, hattains⟩
  · rw [hnone] at h
    cases h
  · rw [hsome] at h
    cases h
    exact ⟨⟨rfl, rfl, rfl, rfl, rfl⟩, hspecial, hlargest, tiles_of_attains hsize hspecial hattains⟩

/-- A plan exists exactly when some special length suits it; it takes the longest one and tiles the slots. -/
theorem funnelPlan_exact (hn : 2 ≤ n) (hsize : n ≤ usizeMax) (hd : 3 ≤ d) (halpha : 4 * d + 10 ≤ usizeMax) :
    ((∃ p, PaperConfig.funnelPlan ⟨n, d⟩ = .ok p) ↔ ∃ special, Compatible n d special) ∧
    ∀ p, PaperConfig.funnelPlan ⟨n, d⟩ = .ok p →
      (p.config = ⟨n, d⟩ ∧ p.alpha = 4 * d + 10 ∧ p.beta = 2 * d ∧
        p.fallbackBucketWidth = 2 * max 1 (Nat.clog 2 (Nat.clog 2 n))) ∧
      Compatible n d p.specialLen ∧ (∀ special, Compatible n d special → special ≤ p.specialLen) ∧ p.Tiles := by
  refine ⟨planned_iff hn hsize hd halpha, fun p hp => ?_⟩
  obtain ⟨⟨hconfig, halpha', hbeta, -, hwidth⟩, hspecial, hlargest, htiles⟩ := funnelPlan_spec hn hsize hd halpha hp
  refine ⟨⟨hconfig, halpha', hbeta, ?_⟩, hspecial, hlargest, htiles⟩
  rw [hwidth, baseTwoLoglogCeiling_eq]

/-- The least table of exponent three has 144 slots. -/
theorem funnelPlan_exact_least :
    ((∃ p, PaperConfig.funnelPlan ⟨144, 3⟩ = .ok p) ↔ ∃ special, Compatible 144 3 special) ∧
    ∀ p, PaperConfig.funnelPlan ⟨144, 3⟩ = .ok p →
      (p.config = ⟨144, 3⟩ ∧ p.alpha = 4 * 3 + 10 ∧ p.beta = 2 * 3 ∧
        p.fallbackBucketWidth = 2 * max 1 (Nat.clog 2 (Nat.clog 2 144))) ∧
      Compatible 144 3 p.specialLen ∧ (∀ special, Compatible 144 3 special → special ≤ p.specialLen) ∧ p.Tiles :=
  funnelPlan_exact (by decide) (by decide) (by decide) (by decide)

end Planning

end Opthash.Geometry
