import Opthash.Exact.Plan
import Opthash.Funnel.Layout

namespace Opthash

namespace Funnel

open Probe Opthash.Geometry

theorem ordinaryLevels_ok (beta : Nat) {counts : List Nat} (index offset : Nat) (hpos : ∀ count ∈ counts, 0 < count)
    (hsum : offset + counts.sum * beta ≤ usizeMax) (hindex : index + counts.length ≤ funnelLevelLimit) :
    ∃ levels, ordinaryLevels beta counts index offset = .ok (levels, offset + counts.sum * beta) ∧
      levels.length = counts.length := by
  induction counts generalizing index offset with
  | nil => exact ⟨[], by simp [ordinaryLevels], rfl⟩
  | cons count counts ih =>
    rw [List.sum_cons, Nat.add_mul, ← Nat.add_assoc] at hsum
    rw [List.length_cons] at hindex
    obtain ⟨hcount, hpos⟩ := List.forall_mem_cons.mp hpos
    obtain ⟨levels, hlevels, hlength⟩ := ih (index + 1) (offset + count * beta) hpos hsum
      (show index + 1 + counts.length ≤ funnelLevelLimit by omega)
    have hrange : rangeOrOverflow count = .ok ⟨count, rejectionThresholdOf count⟩ := by
      rw [rangeOrOverflow, PreparedProbeRange.new, if_neg (by omega)]
    have hbase : ∃ base, ordinaryCounterBase index = some base := by
      rw [ordinaryCounterBase, tryPackFunnelCounter, if_neg (by decide)]
      exact ⟨_, if_pos (by omega)⟩
    obtain ⟨base, hbase⟩ := hbase
    have hslots : checkedUsize (count * beta) = some (count * beta) := if_pos (by omega)
    have hnext : checkedUsize (offset + count * beta) = some (offset + count * beta) := if_pos (by omega)
    refine ⟨⟨offset, ⟨count, rejectionThresholdOf count⟩, base⟩ :: levels, ?_, congrArg (· + 1) hlength⟩
    rw [ordinaryLevels, hrange, hbase, hslots]
    simp only [ok_bind, orOverflow, hnext, hlevels]
    rw [List.sum_cons, Nat.add_mul, ← Nat.add_assoc]
    rfl

namespace FunnelShape

variable {n d m : Nat} {p : FunnelPlan}

theorem fromPlan_ok (hn : 2 ≤ n) (hsize : n ≤ usizeMax) (hd : 3 ≤ d) (hbound : d < 64)
    (h : PaperConfig.funnelPlan ⟨n, d⟩ = .ok p) :
    ∃ s, fromPlan n m p = .ok s ∧ s.levels.length = 4 * d + 10 := by
  obtain ⟨⟨hconfig, halpha, hbeta, hloglog, hwidth⟩, hspecial, -, htiles⟩ :=
    funnelPlan_spec hn hsize hd (by unfold usizeMax; omega) h
  have hloglogpos := baseTwoLoglogCeiling_pos n
  have hloglogle := baseTwoLoglogCeiling_le hsize
  have hbuckets := hspecial.buckets
  have hbucket := hspecial.bucket
  rw [← baseTwoLoglogCeiling_eq, ← hwidth] at hbuckets hbucket
  have hfallback : p.fallbackBucketCount * p.fallbackBucketWidth = p.specialFallbackLen := Nat.div_mul_cancel hbuckets
  have hfallbackpos : 0 < p.fallbackBucketCount := Nat.div_pos hbucket (by omega)
  have htotal := htiles.total
  rw [hfallback, hconfig, Nat.mul_comm] at htotal
  dsimp only at htotal
  have hprimarypos : 0 < p.specialPrimaryLen := by
    unfold FunnelPlan.specialPrimaryLen
    omega
  obtain ⟨levels, hlevels, hlength⟩ := ordinaryLevels_ok p.beta 0 0 htiles.pos
    (by omega) (by rw [htiles.levels, halpha]; unfold funnelLevelLimit; omega)
  have hprimary : rangeOrOverflow p.specialPrimaryLen =
      .ok ⟨p.specialPrimaryLen, rejectionThresholdOf p.specialPrimaryLen⟩ := by
    rw [rangeOrOverflow, PreparedProbeRange.new, if_neg (by omega)]
  have hrange : rangeOrOverflow p.fallbackBucketCount =
      .ok ⟨p.fallbackBucketCount, rejectionThresholdOf p.fallbackBucketCount⟩ := by
    rw [rangeOrOverflow, PreparedProbeRange.new, if_neg (by omega)]
  have hoffset : checkedUsize (0 + p.ordinaryBucketCounts.sum * p.beta + p.specialPrimaryLen) =
      some (0 + p.ordinaryBucketCounts.sum * p.beta + p.specialPrimaryLen) := if_pos (by omega)
  have hstop : checkedUsize (0 + p.ordinaryBucketCounts.sum * p.beta + p.specialPrimaryLen + p.specialFallbackLen) =
      some (0 + p.ordinaryBucketCounts.sum * p.beta + p.specialPrimaryLen + p.specialFallbackLen) := if_pos (by omega)
  refine ⟨{
    n, maxInsertions := m, levels
    beta := p.beta
    loglogCeiling := p.loglogCeiling
    primaryOffset := 0 + p.ordinaryBucketCounts.sum * p.beta
    primaryRange := ⟨p.specialPrimaryLen, rejectionThresholdOf p.specialPrimaryLen⟩
    fallbackOffset := 0 + p.ordinaryBucketCounts.sum * p.beta + p.specialPrimaryLen
    fallbackBucketWidth := p.fallbackBucketWidth
    fallbackBucketRange := ⟨p.fallbackBucketCount, rejectionThresholdOf p.fallbackBucketCount⟩ }, ?_,
    hlength.trans (htiles.levels.trans halpha)⟩
  rw [fromPlan, hlevels]
  simp only [ok_bind, hprimary, orOverflow, hoffset, hstop]
  rw [if_neg (by omega), if_neg (by omega)]
  simp only [hrange]
  rfl

theorem fromSlots_ok_iff {r : ReserveFraction} (hn : 2 ≤ n) (hsize : n ≤ usizeMax) (hd : 3 ≤ r.exponent)
    (hbound : r.exponent < 64) :
    (∃ s, fromSlots n r = .ok s) ↔ ∃ p, PaperConfig.funnelPlan ⟨n, r.exponent⟩ = .ok p := by
  have hexponent := r.positive
  rw [fromSlots, if_neg (by omega), PaperConfig.new, if_neg (by omega), if_neg (by omega)]
  dsimp only
  cases hplan : PaperConfig.funnelPlan ⟨n, r.exponent⟩ with
  | error e =>
    constructor
    · rintro ⟨s, h⟩
      cases h
    · rintro ⟨p, h⟩
      cases h
  | ok p =>
    obtain ⟨s, hs, -⟩ := fromPlan_ok (m := PaperConfig.maxInsertions ⟨n, r.exponent⟩) hn hsize hd hbound hplan
    exact ⟨fun _ => ⟨p, rfl⟩, fun _ => ⟨s, hs⟩⟩

theorem ordinaryLevels_length {beta : Nat} {counts : List Nat} {index offset stop : Nat} {levels : List LevelShape}
    (h : ordinaryLevels beta counts index offset = .ok (levels, stop)) : levels.length = counts.length := by
  induction counts generalizing index offset levels with
  | nil =>
    cases h
    rfl
  | cons count counts ih =>
    rw [ordinaryLevels] at h
    obtain ⟨range, -, h⟩ := bind_ok h
    obtain ⟨base, -, h⟩ := bind_ok h
    obtain ⟨slots, -, h⟩ := bind_ok h
    obtain ⟨next, -, h⟩ := bind_ok h
    obtain ⟨⟨rest, stop'⟩, hrest, h⟩ := bind_ok h
    cases h
    exact congrArg (· + 1) (ih hrest)

theorem fromSlots_plan {r : ReserveFraction} {s : FunnelShape} (h : fromSlots n r = .ok s) (hn : n ≠ 0) :
    2 ≤ n ∧ n ≤ usizeMax ∧ 3 ≤ r.exponent ∧ s.levels.length = 4 * r.exponent + 10 ∧
      ∃ p, PaperConfig.funnelPlan ⟨n, r.exponent⟩ = .ok p ∧
        fromPlan n (PaperConfig.maxInsertions ⟨n, r.exponent⟩) p = .ok s := by
  rw [fromSlots, if_neg hn] at h
  unfold PaperConfig.new at h
  by_cases hsmall : n < 2
  · rw [if_pos hsmall] at h
    cases h
  · rw [if_neg hsmall, if_neg (Nat.ne_of_gt r.positive)] at h
    dsimp only at h
    cases hplan : PaperConfig.funnelPlan ⟨n, r.exponent⟩ with
    | error e =>
      rw [hplan] at h
      cases h
    | ok p =>
      rw [hplan] at h
      dsimp only at h
      have hshape := h
      rw [fromPlan] at h
      obtain ⟨⟨levels, primaryOffset⟩, hlevels, h⟩ := bind_ok h
      obtain ⟨primaryRange, -, h⟩ := bind_ok h
      obtain ⟨fallbackOffset, -, h⟩ := bind_ok h
      obtain ⟨stop, hstop, h⟩ := bind_ok h
      dsimp only at hlevels hstop h
      obtain ⟨rfl, hsize⟩ := checkedUsize_spec (orOverflow_spec hstop)
      by_cases hslots : fallbackOffset + p.specialFallbackLen = n
      swap
      · rw [if_pos hslots] at h
        cases h
      rw [if_neg (not_not.mpr hslots)] at h
      have hd : 3 ≤ r.exponent := by
        by_contra hlow
        rw [PaperConfig.funnelPlan, if_pos (by dsimp only; omega)] at hplan
        cases hplan
      have halpha : 4 * r.exponent + 10 ≤ usizeMax := by
        have := r.bounded
        unfold usizeMax
        omega
      obtain ⟨⟨-, hp, -, -, -⟩, -, -, htiles⟩ := funnelPlan_spec (by omega) (by omega) hd halpha hplan
      have hlength := (ordinaryLevels_length hlevels).trans (htiles.levels.trans hp)
      by_cases hloglog : p.loglogCeiling > 255
      · rw [if_pos hloglog] at h
        cases h
      · rw [if_neg hloglog] at h
        obtain ⟨fallbackRange, -, h⟩ := bind_ok h
        cases h
        exact ⟨by omega, by omega, hd, hlength, p, rfl, hshape⟩

/-- The slots a special array with two fallback buckets of the width for `n` asks for. -/
def requiredSlots (d n : Nat) : Nat := (4 * baseTwoLoglogCeiling n * 2 ^ (d + 2) + 2) / 3

structure Serves (requested : Nat) (r : ReserveFraction) (n : Nat) : Prop where
  two : 2 ≤ n
  size : n ≤ usizeMax
  planned : ∃ p, PaperConfig.funnelPlan ⟨n, r.exponent⟩ = .ok p
  room : requested ≤ Capacity.maxInsertions n r

section Search

variable {r : ReserveFraction} {requested : Nat} (hd : 3 ≤ r.exponent) (hbound : r.exponent < 64)
include hd hbound

theorem serves_iff (hn : 2 ≤ n) (hsize : n ≤ usizeMax) :
    Serves requested r n ↔ ∃ s, fromSlots n r = .ok s ∧ requested ≤ s.maxInsertions := by
  constructor
  · rintro ⟨-, -, hplanned, hroom⟩
    obtain ⟨s, hs⟩ := (fromSlots_ok_iff hn hsize hd hbound).mpr hplanned
    refine ⟨s, hs, ?_⟩
    rwa [((fromSlots_spec hs).2.2 (by omega)).2]
  · rintro ⟨s, hs, hroom⟩
    refine ⟨hn, hsize, (fromSlots_ok_iff hn hsize hd hbound).mp ⟨s, hs⟩, ?_⟩
    rwa [((fromSlots_spec hs).2.2 (by omega)).2] at hroom

variable (requested) in
theorem searchBudget_first {fuel : Nat} (hn : 2 ≤ n) (hend : n + fuel = usizeMax + 1) :
    (∃ s, searchBudget requested r fuel n = .ok s ∧ fromSlots s.n r = .ok s ∧ Serves requested r s.n ∧
      ∀ n', n ≤ n' → Serves requested r n' → s.n ≤ n') ∨
    searchBudget requested r fuel n = .error .capacityOverflow ∧ ∀ n', n ≤ n' → ¬Serves requested r n' := by
  induction fuel generalizing n with
  | zero =>
    refine .inr ⟨rfl, fun n' hle hserves => ?_⟩
    have := hserves.size
    omega
  | succ fuel ih =>
    have hserves := @serves_iff n r requested hd hbound hn (by omega)
    have hnext : ¬Serves requested r n → ∀ n', n ≤ n' → Serves requested r n' → n + 1 ≤ n' := by
      intro hno n' hle hn'
      rcases Nat.eq_or_lt_of_le hle with rfl | hlt
      · exact absurd hn' hno
      · exact hlt
    have hskip : ¬Serves requested r n → searchBudget requested r (fuel + 1) n = searchBudget requested r fuel (n + 1) := by
      intro hno
      rw [searchBudget]
      cases hs : fromSlots n r with
      | error e => rfl
      | ok s => exact if_neg fun hroom => hno (hserves.mpr ⟨s, hs, hroom⟩)
    by_cases hyes : Serves requested r n
    · obtain ⟨s, hs, hroom⟩ := hserves.mp hyes
      have hslots : s.n = n := (fromSlots_spec hs).1
      refine .inl ⟨s, ?_, by rwa [hslots], by rwa [hslots], fun n' hle _ => by rwa [hslots]⟩
      rw [searchBudget, hs]
      exact if_pos hroom
    · rw [hskip hyes]
      rcases ih (show 2 ≤ n + 1 by omega) (by omega) with ⟨s, hs, hslots, hserves', hleast⟩ | ⟨hs, hall⟩
      · exact .inl ⟨s, hs, hslots, hserves', fun n' hle hn' => hleast n' (hnext hyes n' hle hn') hn'⟩
      · exact .inr ⟨hs, fun n' hle hn' => hall n' (hnext hyes n' hle hn') hn'⟩

theorem requiredSlots_le {n' : Nat} (hle : n ≤ n') (h : Serves requested r n') : requiredSlots r.exponent n ≤ n' := by
  obtain ⟨htwo, hsize, ⟨p, hp⟩, -⟩ := h
  obtain ⟨special, hspecial⟩ := (planned_iff htwo hsize hd (by unfold usizeMax; omega)).mp ⟨p, hp⟩
  have hbucket := hspecial.bucket
  rw [← baseTwoLoglogCeiling_eq] at hbucket
  have hmono := baseTwoLoglogCeiling_mono hle
  have hupper := (Nat.le_div_iff_mul_le (Nat.two_pow_pos _)).mp hspecial.upper
  have hlower : 4 * baseTwoLoglogCeiling n * 2 ^ (r.exponent + 2) ≤ special * 2 ^ (r.exponent + 2) :=
    Nat.mul_le_mul_right _ (by omega)
  unfold requiredSlots
  omega

variable (requested) in
theorem funnelMinimumSlotsFrom_least (fuel : Nat) (hsize : n ≤ usizeMax)
    (hfuel : 7 - baseTwoLoglogCeiling n < fuel ∨ requiredSlots r.exponent n ≤ n ∧ 0 < fuel) :
    (∃ m, funnelMinimumSlotsFrom r.exponent fuel n = some m ∧ n ≤ m ∧ m ≤ usizeMax ∧
      ∀ n', n ≤ n' → Serves requested r n' → m ≤ n') ∨
    funnelMinimumSlotsFrom r.exponent fuel n = none ∧ ∀ n', n ≤ n' → ¬Serves requested r n' := by
  induction fuel generalizing n with
  | zero => omega
  | succ fuel ih =>
    have hloglog := baseTwoLoglogCeiling_le hsize
    have hsmall : ¬(r.exponent + 2 ≥ 128 ∨ 4 * baseTwoLoglogCeiling n * 2 ^ (r.exponent + 2) ≥ 2 ^ 128) := by
      have hpow : 2 ^ (r.exponent + 2) ≤ 2 ^ 65 := Nat.pow_le_pow_right (by omega) (by omega)
      have hmul := Nat.mul_le_mul (show 4 * baseTwoLoglogCeiling n ≤ 24 by omega) hpow
      omega
    have hstep : funnelMinimumSlotsFrom r.exponent (fuel + 1) n =
        if requiredSlots r.exponent n > usizeMax then none
        else if requiredSlots r.exponent n ≤ n then some n
        else funnelMinimumSlotsFrom r.exponent fuel (requiredSlots r.exponent n) := by
      rw [funnelMinimumSlotsFrom, if_neg hsmall]
      rfl
    rw [hstep]
    by_cases hover : requiredSlots r.exponent n > usizeMax
    · refine .inr ⟨if_pos hover, fun n' hle hserves => ?_⟩
      have := requiredSlots_le hd hbound hle hserves
      have := hserves.size
      omega
    · by_cases hdone : requiredSlots r.exponent n ≤ n
      · exact .inl ⟨n, (if_neg hover).trans (if_pos hdone), Nat.le_refl _, hsize, fun _ hle _ => hle⟩
      · rw [if_neg hover, if_neg hdone]
        have hmono := baseTwoLoglogCeiling_mono (show n ≤ requiredSlots r.exponent n by omega)
        have hnext : 7 - baseTwoLoglogCeiling (requiredSlots r.exponent n) < fuel ∨
            requiredSlots r.exponent (requiredSlots r.exponent n) ≤ requiredSlots r.exponent n ∧ 0 < fuel := by
          rcases Nat.eq_or_lt_of_le hmono with heq | hlt
          · refine .inr ⟨?_, by omega⟩
            conv_lhs => rw [requiredSlots, ← heq]
            exact Nat.le_refl _
          · omega
        rcases ih (by omega) hnext with ⟨m, hm, hle, hmsize, hleast⟩ | ⟨hm, hall⟩
        · exact .inl ⟨m, hm, by omega, hmsize, fun n' hn' h => hleast n' (requiredSlots_le hd hbound hn' h) h⟩
        · exact .inr ⟨hm, fun n' hn' h => hall n' (requiredSlots_le hd hbound hn' h) h⟩

theorem least_le_of_serves {n' : Nat} (h : Serves requested r n') :
    (r.exponent * 4 + 10) * (r.exponent * 2) + 2 ≤ n' := by
  obtain ⟨htwo, hsize, ⟨p, hp⟩, -⟩ := h
  obtain ⟨special, hspecial⟩ := (planned_iff htwo hsize hd (by unfold usizeMax; omega)).mp ⟨p, hp⟩
  have hmain := (Nat.le_div_iff_mul_le (show 0 < 2 * r.exponent by omega)).mp hspecial.levels
  have hbucket := hspecial.bucket
  rw [Nat.mul_comm r.exponent 4, Nat.mul_comm r.exponent 2]
  omega

variable (requested) in
theorem forInsertBudget_least (hrequested : 1 ≤ requested) :
    (∃ s, forInsertBudget requested r = .ok s ∧ fromSlots s.n r = .ok s ∧ Serves requested r s.n ∧
      ∀ n', Serves requested r n' → s.n ≤ n') ∨
    forInsertBudget requested r = .error .capacityOverflow ∧ ∀ n', ¬Serves requested r n' := by
  have hroom := @Capacity.le_maxInsertions_iff requested
  rw [forInsertBudget, if_neg (by omega), if_neg (by omega), Capacity.exactCapacityFor, if_neg (by omega),
    if_neg (by omega)]
  by_cases hexact : requested + (requested - 1) / (2 ^ r.exponent - 1) ≤ usizeMax
  swap
  · rw [show checkedUsize (requested + (requested - 1) / (2 ^ r.exponent - 1)) = none from if_neg hexact]
    refine .inr ⟨rfl, fun n' h => ?_⟩
    have := (hroom hrequested hbound).mp h.room
    have := h.size
    omega
  · rw [show checkedUsize (requested + (requested - 1) / (2 ^ r.exponent - 1)) =
      some (requested + (requested - 1) / (2 ^ r.exponent - 1)) from if_pos hexact]
    have hleast : (r.exponent * 4 + 10) * (r.exponent * 2) + 2 ≤ usizeMax := by
      have := Nat.mul_le_mul (show r.exponent * 4 + 10 ≤ 262 by omega) (show r.exponent * 2 ≤ 126 by omega)
      unfold usizeMax
      omega
    simp only [orOverflow, ok_bind]
    rw [show checkedUsize ((r.exponent * 4 + 10) * (r.exponent * 2) + 2) =
      some ((r.exponent * 4 + 10) * (r.exponent * 2) + 2) from if_pos hleast]
    dsimp only [ok_bind]
    -- No slot count that serves lies below the three bounds the search starts from.
    have hstart : ∀ n', Serves requested r n' →
        max (max (requested + (requested - 1) / (2 ^ r.exponent - 1)) 2)
          ((r.exponent * 4 + 10) * (r.exponent * 2) + 2) ≤ n' := by
      intro n' h
      have := (hroom hrequested hbound).mp h.room
      have := least_le_of_serves hd hbound h
      have := h.two
      omega
    generalize hfirst : max (max (requested + (requested - 1) / (2 ^ r.exponent - 1)) 2)
      ((r.exponent * 4 + 10) * (r.exponent * 2) + 2) = first at hstart
    rw [funnelMinimumSlots]
    rcases funnelMinimumSlotsFrom_least requested hd hbound (n := first) 8 (by omega)
      (.inl (by omega)) with ⟨m, hm, hle, hmsize, hbelow⟩ | ⟨hm, hall⟩
    · rw [hm]
      dsimp only [ok_bind]
      rcases searchBudget_first requested (n := m) hd hbound (by omega)
        (show m + (usizeMax + 1 - m) = usizeMax + 1 by omega) with ⟨s, hs, hslots, hserves, hfound⟩ | ⟨hs, hall⟩
      · exact .inl ⟨s, hs, hslots, hserves, fun n' h => hfound n' (hbelow n' (hstart n' h) h) h⟩
      · exact .inr ⟨hs, fun n' h => hall n' (hbelow n' (hstart n' h) h) h⟩
    · rw [hm]
      exact .inr ⟨rfl, fun n' h => hall n' (hstart n' h) h⟩

theorem forInsertBudget_full {s : FunnelShape} (hrequested : 1 ≤ requested) (hs : forInsertBudget requested r = .ok s) :
    forInsertBudget s.maxInsertions r = .ok s := by
  have hroom : requested ≤ s.maxInsertions := (forInsertBudget_spec hs).1
  rcases forInsertBudget_least requested hd hbound hrequested with ⟨s', hs', hslots, hserves, hleast⟩ | ⟨hnone, -⟩
  · rw [hs] at hs'
    cases hs'
    have hmax : s.maxInsertions = Capacity.maxInsertions s.n r :=
      ((fromSlots_spec hslots).2.2 (by have := hserves.two; omega)).2
    have hagain : Serves s.maxInsertions r s.n := { hserves with room := Nat.le_of_eq hmax }
    rcases forInsertBudget_least s.maxInsertions hd hbound (by omega) with
      ⟨s', hs', hslots', hserves', hleast'⟩ | ⟨-, hall⟩
    · have hle := hleast' s.n hagain
      have hge := hleast s'.n { hserves' with room := Nat.le_trans hroom hserves'.room }
      rw [Nat.le_antisymm hle hge, hslots] at hslots'
      cases hslots'
      exact hs'
    · exact absurd hagain (hall s.n)
  · rw [hs] at hnone
    cases hnone

/-- A request is served by the shape of the least slot count that serves it, and refused when there is none. -/
theorem forInsertBudget_minimal (hrequested : 1 ≤ requested) :
    (∀ s, forInsertBudget requested r = .ok s → fromSlots s.n r = .ok s ∧ Serves requested r s.n ∧
      (∀ n', Serves requested r n' → s.n ≤ n') ∧ forInsertBudget s.maxInsertions r = .ok s) ∧
    ((∃ s, forInsertBudget requested r = .ok s) ↔ ∃ n', Serves requested r n') ∧
    (forInsertBudget requested r = .error .capacityOverflow ↔ ¬∃ n', Serves requested r n') := by
  rcases forInsertBudget_least requested hd hbound hrequested with ⟨s, hs, hslots, hserves, hleast⟩ | ⟨hs, hall⟩
  · refine ⟨fun s' hs' => ?_, ⟨fun _ => ⟨s.n, hserves⟩, fun _ => ⟨s, hs⟩⟩, ?_⟩
    · rw [hs] at hs'
      cases hs'
      exact ⟨hslots, hserves, hleast, forInsertBudget_full hd hbound hrequested hs⟩
    · rw [hs]
      exact ⟨nofun, fun h => absurd ⟨s.n, hserves⟩ h⟩
  · rw [hs]
    refine ⟨nofun, ⟨?_, ?_⟩, fun _ => ?_, fun _ => rfl⟩
    · rintro ⟨s, h⟩
      cases h
    · rintro ⟨n', h⟩
      exact absurd h (hall n')
    · rintro ⟨n', h⟩
      exact hall n' h

end Search

theorem forInsertBudget_exponent {r : ReserveFraction} {requested : Nat} {s : FunnelShape} (hrequested : 1 ≤ requested)
    (h : forInsertBudget requested r = .ok s) : 3 ≤ r.exponent ∧ r.exponent < 64 := by
  rw [forInsertBudget, if_neg (by omega)] at h
  by_contra hexponent
  rw [if_pos hexponent] at h
  cases h

theorem Serves.exponent {r : ReserveFraction} {requested : Nat} (h : Serves requested r n) :
    3 ≤ r.exponent ∧ r.exponent < 64 := by
  obtain ⟨htwo, hsize, ⟨p, hp⟩, -⟩ := h
  have hd : 3 ≤ r.exponent := by
    by_contra hlow
    rw [PaperConfig.funnelPlan, if_pos (by dsimp only; omega)] at hp
    cases hp
  refine ⟨hd, ?_⟩
  have halpha : 4 * r.exponent + 10 ≤ usizeMax := by
    have := r.bounded
    unfold usizeMax
    omega
  obtain ⟨special, hspecial⟩ := (planned_iff htwo hsize hd halpha).mp ⟨p, hp⟩
  have hbucket := hspecial.bucket
  have hupper := (Nat.le_div_iff_mul_le (Nat.two_pow_pos _)).mp hspecial.upper
  by_contra hlarge
  have hpow : 2 ^ 66 ≤ 2 ^ (r.exponent + 2) := Nat.pow_le_pow_right (by omega) (by omega)
  have hmul := Nat.mul_le_mul (show 1 ≤ special by omega) hpow
  unfold usizeMax at hsize
  omega

theorem forInsertBudget_room {r : ReserveFraction} {requested : Nat} {s : FunnelShape}
    (h : forInsertBudget requested r = .ok s) : forInsertBudget s.maxInsertions r = .ok s := by
  rcases Nat.eq_zero_or_pos requested with rfl | hrequested
  · cases h
    rfl
  · obtain ⟨hd, hbound⟩ := forInsertBudget_exponent hrequested h
    exact forInsertBudget_full hd hbound hrequested h

theorem forInsertBudget_ok_iff {r : ReserveFraction} {requested : Nat} (hrequested : 1 ≤ requested) :
    (∃ s, forInsertBudget requested r = .ok s) ↔ ∃ n', Serves requested r n' := by
  constructor
  · rintro ⟨s, hs⟩
    obtain ⟨hd, hbound⟩ := forInsertBudget_exponent hrequested hs
    rcases forInsertBudget_least requested hd hbound hrequested with ⟨s', -, -, hserves, -⟩ | ⟨hnone, -⟩
    · exact ⟨s'.n, hserves⟩
    · rw [hs] at hnone
      cases hnone
  · rintro ⟨n', h⟩
    obtain ⟨hd, hbound⟩ := h.exponent
    rcases forInsertBudget_least requested hd hbound hrequested with ⟨s', hs, -⟩ | ⟨-, hall⟩
    · exact ⟨s', hs⟩
    · exact absurd h (hall n')

/-- The least table of exponent three. -/
theorem forInsertBudget_minimal_least :
    (∀ s, forInsertBudget 1 ⟨3, by decide, by decide⟩ = .ok s → fromSlots s.n ⟨3, by decide, by decide⟩ = .ok s ∧
      Serves 1 ⟨3, by decide, by decide⟩ s.n ∧ (∀ n', Serves 1 ⟨3, by decide, by decide⟩ n' → s.n ≤ n') ∧
      forInsertBudget s.maxInsertions ⟨3, by decide, by decide⟩ = .ok s) ∧
    ((∃ s, forInsertBudget 1 ⟨3, by decide, by decide⟩ = .ok s) ↔ ∃ n', Serves 1 ⟨3, by decide, by decide⟩ n') ∧
    (forInsertBudget 1 ⟨3, by decide, by decide⟩ = .error .capacityOverflow ↔
      ¬∃ n', Serves 1 ⟨3, by decide, by decide⟩ n') :=
  forInsertBudget_minimal (by decide) (by decide) (by decide)

end FunnelShape

end Funnel

end Opthash
