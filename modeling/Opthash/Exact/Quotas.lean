import Opthash.Exact.Plan

namespace Opthash.Geometry

section Lengths

variable {slots levels n : Nat}

def Halves (current next : Nat) : Prop := |2 * (next : Int) - current| ≤ 2

theorem levelLengthsFrom_cons (slots levels : Nat) :
    levelLengthsFrom slots (levels + 2) =
      (slots / 2 + slots % 2) :: levelLengthsFrom (slots / 2) (levels + 1) := by
  have hrest : slots - (slots / 2 + slots % 2) = slots / 2 := by omega
  rw [levelLengthsFrom, if_neg (by omega), hrest]

theorem levelLengthsFrom_one (slots : Nat) : levelLengthsFrom slots 1 = [slots] := by
  rw [levelLengthsFrom, if_pos rfl, levelLengthsFrom]

theorem levelLengthsFrom_spec (hlow : 2 ^ levels ≤ slots) (hhigh : slots ≤ 2 ^ (levels + 1)) :
    (∀ length ∈ levelLengthsFrom slots (levels + 1), 0 < length) ∧
      (levelLengthsFrom slots (levels + 1)).IsChain Halves ∧
      ∀ last, (levelLengthsFrom slots (levels + 1)).getLast? = some last → last ≤ 2 := by
  induction levels generalizing slots with
  | zero =>
    rw [Nat.zero_add, levelLengthsFrom_one]
    refine ⟨?_, List.isChain_singleton _, ?_⟩
    · intro length h
      rw [List.mem_singleton.mp h]
      exact hlow
    · intro last h
      obtain rfl := Option.some.inj h
      exact hhigh
  | succ levels ih =>
    rw [Nat.pow_succ] at hlow hhigh
    obtain ⟨hpos, hchain, hlast⟩ := @ih (slots / 2) (by omega) (by omega)
    have hone := Nat.two_pow_pos levels
    rw [levelLengthsFrom_cons]
    refine ⟨?_, ?_, ?_⟩
    · intro length h
      rcases List.mem_cons.mp h with rfl | h
      · omega
      · exact hpos length h
    · cases levels with
      | zero =>
        rw [Nat.zero_add, levelLengthsFrom_one]
        refine List.isChain_cons_cons.mpr ⟨?_, List.isChain_singleton _⟩
        rw [Halves, abs_le]
        omega
      | succ levels =>
        rw [levelLengthsFrom_cons] at hchain ⊢
        refine List.isChain_cons_cons.mpr ⟨?_, hchain⟩
        rw [Halves, abs_le]
        omega
    · intro last h
      apply hlast last
      cases levels <;> simpa [levelLengthsFrom] using h

theorem levelLengths_spec {c : PaperConfig} (h : 2 ≤ c.n) :
    (∀ length ∈ c.levelLengths, 0 < length) ∧ c.levelLengths.IsChain Halves ∧
      ∀ last, c.levelLengths.getLast? = some last → last ≤ 2 := by
  obtain ⟨levels, hlevels⟩ : ∃ levels, c.levelCount = levels + 1 :=
    Nat.exists_eq_succ_of_ne_zero (Nat.ne_of_gt (ceilLog2_pos h))
  have hhigh : c.n ≤ 2 ^ (levels + 1) := ceilLog2_le_iff.mp (Nat.le_of_eq hlevels)
  have hlow : 2 ^ levels ≤ c.n := by
    by_contra hlt
    have : ceilLog2 c.n ≤ levels := ceilLog2_le_iff.mpr (by omega)
    have : ceilLog2 c.n = levels + 1 := hlevels
    omega
  rw [PaperConfig.levelLengths, hlevels]
  exact levelLengthsFrom_spec hlow hhigh

end Lengths

section Quotas

variable {d level previous remaining : Nat} {levels : List Nat}

theorem floorDivPow2_eq {n e : Nat} (hn : n ≤ usizeMax) : floorDivPow2 n e = n / 2 ^ e := by
  unfold floorDivPow2
  split
  · have : 2 ^ 64 ≤ 2 ^ e := Nat.pow_le_pow_right (by decide) (by assumption)
    unfold usizeMax at hn
    exact (Nat.div_eq_of_lt (by omega)).symm
  · exact Nat.shiftRight_eq_div_pow ..

theorem ceilThreeQuarters_le (hd : 0 < d) (level : Nat) :
    ceilThreeQuarters level ≤ level - floorDivPow2 level (d + 1) := by
  have hquarter : floorDivPow2 level (d + 1) ≤ level / 4 := by
    unfold floorDivPow2
    split
    · exact Nat.zero_le _
    · rw [Nat.shiftRight_eq_div_pow]
      apply Nat.div_le_div_left _ (by decide)
      calc 4 = 2 ^ 2 := rfl
        _ ≤ 2 ^ (d + 1) := Nat.pow_le_pow_right (by decide) (by omega)
  unfold ceilThreeQuarters
  omega

/-- The quotas before they are cut at the insertion limit, added up. -/
def rawQuotaSum (reserveExponent : Nat) : Option Nat → List Nat → Nat
  | _, [] => 0
  | none, level :: levels => ceilThreeQuarters level + rawQuotaSum reserveExponent (some level) levels
  | some previous, level :: levels =>
    previous - floorDivPow2 previous (reserveExponent + 1) - ceilThreeQuarters previous + ceilThreeQuarters level +
      rawQuotaSum reserveExponent (some level) levels

theorem batchQuotasFrom_sum (d : Nat) (previous : Option Nat) (remaining : Nat) (levels : List Nat) :
    (batchQuotasFrom d previous remaining levels).sum = min (rawQuotaSum d previous levels) remaining := by
  induction levels generalizing previous remaining with
  | nil => cases previous <;> simp [batchQuotasFrom, rawQuotaSum]
  | cons level levels ih =>
    cases previous <;> simp only [batchQuotasFrom, rawQuotaSum, List.sum_cons, ih] <;> omega

theorem le_rawQuotaSum (hd : 0 < d) (hsize : previous + levels.sum ≤ usizeMax)
    (hlast : ∀ last, (previous :: levels).getLast? = some last → last ≤ 2) :
    previous + levels.sum ≤ rawQuotaSum d (some previous) levels + ceilThreeQuarters previous +
      (previous + levels.sum) / 2 ^ (d + 1) := by
  induction levels generalizing previous with
  | nil =>
    have hsmall := hlast previous rfl
    have hwhole : ceilThreeQuarters previous = previous := by
      unfold ceilThreeQuarters
      omega
    rw [rawQuotaSum, hwhole, List.sum_nil, Nat.zero_add, Nat.add_zero]
    exact Nat.le_add_right ..
  | cons level levels ih =>
    rw [List.sum_cons] at hsize ⊢
    have hrest := @ih level (by omega) (by simpa [List.getLast?_cons] using hlast)
    have hfit := ceilThreeQuarters_le hd previous
    have hreserve : floorDivPow2 previous (d + 1) = previous / 2 ^ (d + 1) := floorDivPow2_eq (by omega)
    have hadd : previous / 2 ^ (d + 1) + (level + levels.sum) / 2 ^ (d + 1) ≤
        (previous + (level + levels.sum)) / 2 ^ (d + 1) := Nat.div_add_div_le_add_div
    have hle := floorDivPow2_le previous (d + 1)
    rw [rawQuotaSum]
    omega

theorem batchQuotas_sum {c : PaperConfig} (hn : 2 ≤ c.n) (hsize : c.n ≤ usizeMax) (hd : 0 < c.reserveExponent) :
    c.batchQuotas.sum = c.maxInsertions := by
  obtain ⟨-, -, hlast⟩ := levelLengths_spec hn
  have hsum := levelLengths_sum hn
  have hlimit : c.maxInsertions = c.n - c.n / 2 ^ c.reserveExponent := by
    rw [PaperConfig.maxInsertions, PaperConfig.floorDeltaN, floorDivPow2_eq hsize]
  have hhalf : c.n / 2 ^ (c.reserveExponent + 1) ≤ c.n / 2 ^ c.reserveExponent :=
    Nat.div_le_div_left (Nat.pow_le_pow_right (by decide) (Nat.le_succ _)) (Nat.two_pow_pos _)
  have hraw : c.n ≤ rawQuotaSum c.reserveExponent none c.levelLengths + c.n / 2 ^ (c.reserveExponent + 1) := by
    cases hlevels : c.levelLengths with
    | nil =>
      rw [hlevels, List.sum_nil] at hsum
      omega
    | cons level levels =>
      rw [hlevels] at hlast
      rw [hlevels, List.sum_cons] at hsum
      have := @le_rawQuotaSum c.reserveExponent level levels hd (by omega) hlast
      rw [rawQuotaSum, ← hsum]
      omega
  rw [PaperConfig.batchQuotas, batchQuotasFrom_sum]
  omega

/-- The levels of a table use up its slots and its batches use up the insertions it allows. -/
theorem elasticPlan_exact {n d : Nat} (hn : 2 ≤ n) (hsize : n ≤ usizeMax) (hd : 0 < d) :
    (PaperConfig.levelLengths ⟨n, d⟩).length = Nat.clog 2 n ∧
    (∀ length ∈ PaperConfig.levelLengths ⟨n, d⟩, 0 < length) ∧
    (PaperConfig.levelLengths ⟨n, d⟩).sum = n ∧
    (PaperConfig.levelLengths ⟨n, d⟩).IsChain (fun current next : Nat => |2 * (next : Int) - current| ≤ 2) ∧
    (∀ previous ∈ PaperConfig.levelLengths ⟨n, d⟩, floorDivPow2 previous (d + 1) ≤ previous ∧
      ceilThreeQuarters previous ≤ previous - floorDivPow2 previous (d + 1)) ∧
    (∀ before quota after, PaperConfig.batchQuotas ⟨n, d⟩ = before ++ quota :: after →
      before.sum ≤ PaperConfig.maxInsertions ⟨n, d⟩ ∧ quota ≤ PaperConfig.maxInsertions ⟨n, d⟩ - before.sum) ∧
    (PaperConfig.batchQuotas ⟨n, d⟩).sum = PaperConfig.maxInsertions ⟨n, d⟩ ∧
    PaperConfig.maxInsertions ⟨n, d⟩ = n - n / 2 ^ d := by
  have hsum := @batchQuotas_sum ⟨n, d⟩ hn hsize hd
  obtain ⟨hpos, hchain, -⟩ := @levelLengths_spec ⟨n, d⟩ hn
  refine ⟨?_, hpos, levelLengths_sum hn, hchain, ?_, ?_, hsum, ?_⟩
  · rw [PaperConfig.levelLengths, levelLengthsFrom_length, PaperConfig.levelCount, ceilLog2_eq]
  · intro previous _
    exact ⟨floorDivPow2_le .., ceilThreeQuarters_le hd previous⟩
  · intro before quota after hsplit
    rw [hsplit, List.sum_append, List.sum_cons] at hsum
    omega
  · rw [PaperConfig.maxInsertions, PaperConfig.floorDeltaN, floorDivPow2_eq hsize]

theorem elasticPlan_exact_three :
    (PaperConfig.levelLengths ⟨3, 1⟩).length = Nat.clog 2 3 ∧
    (∀ length ∈ PaperConfig.levelLengths ⟨3, 1⟩, 0 < length) ∧
    (PaperConfig.levelLengths ⟨3, 1⟩).sum = 3 ∧
    (PaperConfig.levelLengths ⟨3, 1⟩).IsChain (fun current next : Nat => |2 * (next : Int) - current| ≤ 2) ∧
    (∀ previous ∈ PaperConfig.levelLengths ⟨3, 1⟩, floorDivPow2 previous (1 + 1) ≤ previous ∧
      ceilThreeQuarters previous ≤ previous - floorDivPow2 previous (1 + 1)) ∧
    (∀ before quota after, PaperConfig.batchQuotas ⟨3, 1⟩ = before ++ quota :: after →
      before.sum ≤ PaperConfig.maxInsertions ⟨3, 1⟩ ∧ quota ≤ PaperConfig.maxInsertions ⟨3, 1⟩ - before.sum) ∧
    (PaperConfig.batchQuotas ⟨3, 1⟩).sum = PaperConfig.maxInsertions ⟨3, 1⟩ ∧
    PaperConfig.maxInsertions ⟨3, 1⟩ = 3 - 3 / 2 ^ 1 :=
  elasticPlan_exact (by decide) (by decide) (by decide)

end Quotas

end Opthash.Geometry
