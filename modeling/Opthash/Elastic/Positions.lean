import Mathlib.Data.List.Sort
import Opthash.Elastic.Table
import Opthash.Exact.Pairing
import Opthash.Lib.Slots

namespace Opthash.Elastic

open Probe

section Limits

variable {level j : Nat}

theorem probe_le_of_phi_le {i : Nat} (hi : 0 < i) (h : phi i j ≤ queryPositionCap) : j ≤ 383 := by
  by_contra hj
  have hpairs : pairs 384 ≤ pairs j := pairs_strictMono.monotone (by omega)
  have hvalue : pairs 384 = 256682 := by decide
  have hpow : 2 ^ 2 ≤ 2 ^ (bitLength i + 1) := by
    refine Nat.pow_le_pow_right (by decide) ?_
    rw [bitLength_pos hi]
    omega
  have hphi : 256682 * 2 ^ 2 ≤ pairs j * 2 ^ (bitLength i + 1) := Nat.mul_le_mul (hvalue ▸ hpairs) hpow
  unfold phi queryPositionCap at h
  omega

theorem phi_lt_of_probe {i : Nat} (hi : i ≤ 32) (hj : j ≤ 4096) : phi i j < 2 ^ 128 := by
  have hib : bitLength i ≤ 6 := bitLength_le (by omega)
  have hjb : bitLength j ≤ 13 := bitLength_le (by omega)
  have hpairs : pairs j < 4 ^ 13 := Nat.lt_of_lt_of_le (pairsBelow_lt _) (Nat.pow_le_pow_right (by decide) hjb)
  have hpow : 2 ^ (bitLength i + 1) ≤ 2 ^ 7 := Nat.pow_le_pow_right (by decide) (by omega)
  have hphi : pairs j * 2 ^ (bitLength i + 1) ≤ 4 ^ 13 * 2 ^ 7 := Nat.mul_le_mul (Nat.le_of_lt hpairs) hpow
  unfold phi
  omega

theorem elasticPhi_of_level (hl : level < 32) (hj : 0 < j) (hj' : j ≤ 4096) :
    elasticPhi (level + 1) j = .ok (phi (level + 1) j) :=
  elasticPhi_eq (Nat.succ_pos _) hj (phi_lt_of_probe hl hj')

theorem phiAt_eq (hl : level < 32) (hj : 0 < j) (hj' : j ≤ 4096) : phiAt (level + 1) j = .ok (phi (level + 1) j) := by
  rw [phiAt, elasticPhi_of_level hl hj hj']

theorem lt_levelRouteCountFrom (hl : level < 32) {fuel start : Nat} (hstart : 0 < start)
    (hfuel : 4097 ≤ fuel + start) (hj : start ≤ j) :
    j < start + levelRouteCountFrom (level + 1) fuel start ↔ phi (level + 1) j ≤ queryPositionCap := by
  induction fuel generalizing start with
  | zero =>
    rw [levelRouteCountFrom]
    constructor
    · intro h
      omega
    · intro h
      have := probe_le_of_phi_le (Nat.succ_pos level) h
      omega
  | succ fuel ih =>
    have hmono := (phi_strictMono (level + 1)).monotone
    rw [levelRouteCountFrom]
    by_cases hcap : start ≤ uniformSearchCap
    · rw [if_pos hcap, elasticPhi_of_level hl hstart hcap]
      dsimp only
      by_cases hpos : phi (level + 1) start > queryPositionCap
      · rw [if_pos hpos]
        have := hmono hj
        omega
      · rw [if_neg hpos]
        rcases Nat.eq_or_lt_of_le hj with rfl | hlt
        · omega
        · have hrest := @ih (start + 1) (Nat.succ_pos start) (by omega) hlt
          omega
    · rw [if_neg hcap]
      have := @probe_le_of_phi_le j (level + 1) (Nat.succ_pos level)
      unfold uniformSearchCap at hcap
      omega

theorem le_levelProbeLimit (hl : level < 32) (hj : 0 < j) :
    j ≤ levelProbeLimit level ↔ phi (level + 1) j ≤ queryPositionCap := by
  unfold levelProbeLimit levelRouteCount
  by_cases h0 : level = 0
  · subst h0
    simp only [↓reduceIte]
    rcases Nat.eq_or_lt_of_le hj with rfl | h2
    · have hfirst : phi 1 1 ≤ queryPositionCap := by decide
      simp only [Nat.zero_add, Nat.succ_eq_add_one] at *
      omega
    · have hcount := @lt_levelRouteCountFrom 0 j hl uniformSearchCap 2 (by decide) (by decide) h2
      omega
  · simp only [h0, ↓reduceIte]
    have hcount := @lt_levelRouteCountFrom level j hl uniformSearchCap 1 (by decide) (by decide) hj
    omega

end Limits

section Counter

variable {level index : Nat}

theorem elasticCounterBase_toNat (hl : level < 32) (hi : index < 512) :
    (elasticCounterBase level index).toNat = level * 2 ^ 16 + index * 2 ^ 3 := by
  have hhigh : (UInt32.ofNat level <<< 16).toNat = 2 ^ 16 * level := by
    rw [UInt32.toNat_shiftLeft, UInt32.toNat_ofNat', Nat.shiftLeft_eq]
    have hshift : (16 : UInt32).toNat % 32 = 16 := rfl
    rw [hshift]
    omega
  have hlow : (UInt32.ofNat index <<< 3).toNat = index * 2 ^ 3 := by
    rw [UInt32.toNat_shiftLeft, UInt32.toNat_ofNat', Nat.shiftLeft_eq]
    have hshift : (3 : UInt32).toNat % 32 = 3 := rfl
    rw [hshift]
    omega
  have hfits : index * 2 ^ 3 < 2 ^ 16 := by omega
  rw [elasticCounterBase, UInt32.toNat_or, hhigh, hlow, ← Nat.two_pow_add_eq_or_of_lt hfits, Nat.mul_comm]

theorem elasticCounterLevel_base (hl : level < 32) (hi : index < 512) :
    elasticCounterLevel (elasticCounterBase level index) = level := by
  have hmask : (0x1f : UInt32).toNat = 2 ^ 5 - 1 := rfl
  have hshift : (16 : UInt32).toNat % 32 = 16 := rfl
  rw [elasticCounterLevel, UInt32.toNat_and, UInt32.toNat_shiftRight, elasticCounterBase_toNat hl hi, hmask,
    Nat.and_two_pow_sub_one_eq_mod, hshift, Nat.shiftRight_eq_div_pow]
  omega

end Counter

section Schedule

variable {level j position : Nat}

/-- `first` is the first probe of the level behind the position. -/
structure FirstAfter (level position first : Nat) : Prop where
  pos : 0 < first
  le_iff : ∀ j, 0 < j → j ≤ 4096 → (first ≤ j ↔ position < phi (level + 1) j)

theorem firstPaperProbeAfterFrom_spec (hl : level < 32) {fuel lower upper : Nat} (hlower : 0 < lower)
    (hle : lower ≤ upper) (hupper : upper ≤ 4097) (hfuel : upper ≤ lower + fuel)
    (hbelow : ∀ j, 0 < j → j < lower → phi (level + 1) j ≤ position)
    (habove : ∀ j, upper ≤ j → j ≤ 4096 → position < phi (level + 1) j) :
    ∃ first, firstPaperProbeAfterFrom (level + 1) position fuel lower upper = .ok first ∧
      FirstAfter level position first := by
  have hmono := (phi_strictMono (level + 1)).monotone
  have hdone : lower = upper → FirstAfter level position lower := by
    rintro rfl
    refine ⟨hlower, fun j hj hj' => ⟨fun h => habove j h hj', fun h => ?_⟩⟩
    by_contra hlt
    have := hbelow j hj (by omega)
    omega
  induction fuel generalizing lower upper with
  | zero => exact ⟨lower, rfl, hdone (by omega)⟩
  | succ fuel ih =>
    rw [firstPaperProbeAfterFrom]
    by_cases hlt : lower < upper
    · rw [if_pos hlt]
      dsimp only
      generalize hmid : lower + (upper - lower) / 2 = middle
      rw [phiAt_eq hl (by omega) (by omega), ok_bind]
      by_cases hpos : phi (level + 1) middle ≤ position
      · rw [if_pos hpos]
        have hbelow' : ∀ j, 0 < j → j < middle + 1 → phi (level + 1) j ≤ position := fun j _ hj =>
          Nat.le_trans (hmono (by omega)) hpos
        refine ih (Nat.succ_pos _) (by omega) hupper (by omega) hbelow' habove fun h => ?_
        refine ⟨Nat.succ_pos _, fun j hj hj' => ⟨fun h' => habove j (by omega) hj', fun h' => ?_⟩⟩
        by_contra hlt'
        have := hbelow' j hj (by omega)
        omega
      · rw [if_neg hpos]
        have habove' : ∀ j, middle ≤ j → j ≤ 4096 → position < phi (level + 1) j := fun j hj _ =>
          Nat.lt_of_lt_of_le (Nat.lt_of_not_le hpos) (hmono hj)
        refine ih hlower (by omega) (by omega) (by omega) hbelow habove' fun h => ?_
        refine ⟨hlower, fun j hj hj' => ⟨fun h' => habove' j (by omega) hj', fun h' => ?_⟩⟩
        by_contra hlt'
        have := hbelow j hj (by omega)
        omega
    · rw [if_neg hlt]
      exact ⟨lower, rfl, hdone (by omega)⟩

theorem firstPaperProbeAfter_spec (hl : level < 32) (position : Nat) :
    ∃ first, firstPaperProbeAfter (level + 1) position = .ok first ∧ FirstAfter level position first := by
  apply firstPaperProbeAfterFrom_spec hl Nat.one_pos
  · exact Nat.le_add_left 1 4096
  · exact Nat.le_refl 4097
  · exact Nat.le_refl 4097
  · intro j hj hj'
    omega
  · intro j hj hj'
    unfold uniformSearchCap at hj
    omega

/-- The route of the level's `j`th probe, before its range is filled in. -/
def routeOf (level j : Nat) : PhiRoute := ⟨phi (level + 1) j, elasticCounterBase level (j - 1)⟩

theorem packRoute_eq (hl : level < 32) (hphi : phi (level + 1) j ≤ queryPositionCap) :
    ElasticTable.packRoute level j (phi (level + 1) j) = .ok (routeOf level j) := by
  have hj := probe_le_of_phi_le (Nat.succ_pos level) hphi
  have hpack : tryPackElasticCounter level (j - 1) 0 = some (elasticCounterBase level (j - 1)) := by
    unfold tryPackElasticCounter elasticLevelLimit elasticLogicalLimit elasticRejectionLimit elasticLogicalShift
    rw [if_neg (by omega)]
    exact congrArg some (UInt32.or_zero ..)
  rw [ElasticTable.packRoute, if_neg (by unfold queryProbeLimit; omega), hpack]
  dsimp only
  rw [if_neg]
  · rfl
  · unfold queryPositionCap at hphi
    unfold u32Max
    omega

theorem forEachPhiRouteFrom_spec (hl : level < 32) {cap : Nat} (hcap : cap ≤ queryPositionCap) {fuel start : Nat}
    (hstart : 0 < start) (hfuel : 4097 ≤ fuel + start) :
    ∃ routes, forEachPhiRouteFrom (level + 1) cap (ElasticTable.packRoute level) fuel start = .ok routes ∧
      routes.Pairwise (fun r s => r.rangeUpper < s.rangeUpper) ∧
      ∀ r, r ∈ routes ↔ ∃ j, start ≤ j ∧ phi (level + 1) j ≤ cap ∧ r = routeOf level j := by
  have hmono := (phi_strictMono (level + 1)).monotone
  have hnone : ∀ start', (∀ j, start' ≤ j → cap < phi (level + 1) j) →
      ∃ routes, (.ok [] : Except Panic (List PhiRoute)) = .ok routes ∧
        routes.Pairwise (fun r s => r.rangeUpper < s.rangeUpper) ∧
        ∀ r, r ∈ routes ↔ ∃ j, start' ≤ j ∧ phi (level + 1) j ≤ cap ∧ r = routeOf level j := by
    intro start' hlate
    refine ⟨[], rfl, .nil, fun r => ⟨fun h => (List.not_mem_nil h).elim, ?_⟩⟩
    rintro ⟨j, hj, hphi, -⟩
    have := hlate j hj
    omega
  have hlast : ∀ j, 4097 ≤ j → cap < phi (level + 1) j := by
    intro j hj
    by_contra h
    have := @probe_le_of_phi_le j (level + 1) (Nat.succ_pos level) (by omega)
    omega
  induction fuel generalizing start with
  | zero => exact hnone start fun j hj => hlast j (by omega)
  | succ fuel ih =>
    rw [forEachPhiRouteFrom]
    by_cases hle : start ≤ uniformSearchCap
    · rw [if_pos hle, phiAt_eq hl hstart hle, ok_bind]
      by_cases hpos : phi (level + 1) start > cap
      · rw [if_pos hpos]
        exact hnone start fun j hj => Nat.lt_of_lt_of_le hpos (hmono hj)
      · rw [if_neg hpos, packRoute_eq hl (by omega), ok_bind]
        obtain ⟨routes, hroutes, hordered, hmem⟩ := @ih (start + 1) (Nat.succ_pos _) (by omega)
        rw [hroutes]
        refine ⟨routeOf level start :: routes, rfl, List.pairwise_cons.mpr ⟨fun r hr => ?_, hordered⟩, fun r => ?_⟩
        · obtain ⟨j, hj, -, rfl⟩ := (hmem r).mp hr
          exact phi_strictMono (level + 1) hj
        rw [List.mem_cons, hmem]
        constructor
        · rintro (rfl | ⟨j, hj, hphi, rfl⟩)
          · exact ⟨start, Nat.le_refl _, by omega, rfl⟩
          · exact ⟨j, by omega, hphi, rfl⟩
        · rintro ⟨j, hj, hphi, rfl⟩
          rcases Nat.eq_or_lt_of_le hj with rfl | hlt
          · exact .inl rfl
          · exact .inr ⟨j, hlt, hphi, rfl⟩
    · rw [if_neg hle]
      refine hnone start fun j hj => hlast j ?_
      unfold uniformSearchCap at hle
      omega

def Direct (level j : Nat) : Prop := level = 0 ∧ j = 1

theorem newRoutes_spec (hl : level < 32) {prior cap : Nat} (hcap : cap ≤ queryPositionCap) :
    ∃ routes, ElasticTable.newRoutes prior cap level = .ok routes ∧
      routes.Pairwise (fun r s => r.rangeUpper < s.rangeUpper) ∧
      ∀ r, r ∈ routes ↔ ∃ j, 0 < j ∧ prior < phi (level + 1) j ∧ phi (level + 1) j ≤ cap ∧ ¬Direct level j ∧
        r = routeOf level j := by
  obtain ⟨first, hfirst, hafter⟩ := firstPaperProbeAfter_spec hl prior
  have hsmall : ∀ j, phi (level + 1) j ≤ cap → j ≤ 4096 := fun j hphi =>
    Nat.le_trans (probe_le_of_phi_le (Nat.succ_pos level) (Nat.le_trans hphi hcap)) (by decide)
  rw [ElasticTable.newRoutes, hfirst, ok_bind, forEachPhiRoute]
  generalize hstart : (if level = 0 ∧ first = 1 then 2 else first) = start
  have hpos : 0 < start := by
    rw [← hstart]
    split
    · exact Nat.two_pos
    · exact hafter.pos
  have hskip : ∀ j, start ≤ j ↔ first ≤ j ∧ ¬Direct level j := by
    intro j
    have := hafter.pos
    rw [← hstart]
    unfold Direct
    split <;> omega
  obtain ⟨routes, hroutes, hordered, hmem⟩ := @forEachPhiRouteFrom_spec level hl cap hcap uniformSearchCap start hpos
    (by unfold uniformSearchCap; omega)
  refine ⟨routes, hroutes, hordered, fun r => ?_⟩
  rw [hmem]
  constructor
  · rintro ⟨j, hj, hphi, rfl⟩
    obtain ⟨hle, hdirect⟩ := (hskip j).mp hj
    exact ⟨j, by omega, (hafter.le_iff j (by omega) (hsmall j hphi)).mp hle, hphi, hdirect, rfl⟩
  · rintro ⟨j, hj, hprior, hphi, hdirect, rfl⟩
    exact ⟨j, (hskip j).mpr ⟨(hafter.le_iff j hj (hsmall j hphi)).mpr hprior, hdirect⟩, hphi, rfl⟩

def PhiRoute.Below (r s : PhiRoute) : Prop := r.rangeUpper ≤ s.rangeUpper

instance : DecidableRel PhiRoute.Below := fun r s => inferInstanceAs (Decidable (r.rangeUpper ≤ s.rangeUpper))

instance : Std.Total PhiRoute.Below := ⟨fun r s => Nat.le_total r.rangeUpper s.rangeUpper⟩

instance : IsTrans PhiRoute PhiRoute.Below := ⟨fun _ _ _ => Nat.le_trans⟩

theorem insertRoute_eq (r : PhiRoute) (routes : List PhiRoute) :
    insertRoute r routes = routes.orderedInsert PhiRoute.Below r := by
  induction routes with
  | nil => rfl
  | cons s routes ih =>
    rw [insertRoute, List.orderedInsert_cons, ih]
    rfl

theorem sortRoutes_eq (routes : List PhiRoute) : sortRoutes routes = routes.insertionSort PhiRoute.Below := by
  induction routes with
  | nil => rfl
  | cons r routes ih => rw [sortRoutes, insertRoute_eq, ih, List.insertionSort_cons]

theorem mem_sortRoutes {r : PhiRoute} {routes : List PhiRoute} : r ∈ sortRoutes routes ↔ r ∈ routes := by
  rw [sortRoutes_eq, List.mem_insertionSort]

theorem sortRoutes_ordered {routes : List PhiRoute} (h : routes.Pairwise fun r s => r.rangeUpper ≠ s.rangeUpper) :
    (sortRoutes routes).Pairwise fun r s => r.rangeUpper < s.rangeUpper := by
  have hperm := List.perm_insertionSort PhiRoute.Below routes
  rw [← sortRoutes_eq] at hperm
  have hsorted := List.pairwise_insertionSort PhiRoute.Below routes
  rw [← sortRoutes_eq] at hsorted
  have hdistinct := h.perm hperm.symm fun {_ _} => Ne.symm
  exact (hsorted.and hdistinct).imp fun ⟨hle, hne⟩ => Nat.lt_of_le_of_ne hle hne

theorem flatten_distinct {levels : List Nat} {routes : List (List PhiRoute)} {Q : Nat → PhiRoute → Prop}
    (hnodup : levels.Nodup)
    (hQ : ∀ level r, Q level r → ∃ j, 0 < j ∧ phi (level + 1) j ≤ queryPositionCap ∧ r = routeOf level j)
    (h : List.Forall₂ (fun level routes => routes.Pairwise (fun r s => r.rangeUpper < s.rangeUpper) ∧
      ∀ r, r ∈ routes ↔ Q level r) levels routes) :
    routes.flatten.Pairwise fun r s => r.rangeUpper ≠ s.rangeUpper := by
  induction h with
  | nil => exact .nil
  | @cons level own levels routes hown hrest ih =>
    obtain ⟨hlevel, hnodup⟩ := List.nodup_cons.mp hnodup
    rw [List.flatten_cons]
    apply List.pairwise_append.mpr
    refine ⟨hown.1.imp Nat.ne_of_lt, ih hnodup, fun r hr s hs hsame => ?_⟩
    obtain ⟨j, hj, hphi, rfl⟩ := hQ level r ((hown.2 r).mp hr)
    obtain ⟨level', hlevel', hmem⟩ := (Slots.mem_flatten_of_forall₂ (hrest.imp fun _ _ h => h.2)).mp hs
    obtain ⟨j', hj', -, rfl⟩ := hQ level' s hmem
    have hlt : phi (level + 1) j < 2 ^ 128 := by
      unfold queryPositionCap at hphi
      omega
    obtain ⟨hsucc, -⟩ := phi_injective (Nat.succ_pos level) hj (Nat.succ_pos level') hj' hlt hsame
    obtain rfl := Nat.succ.inj hsucc
    exact hlevel hlevel'

end Schedule

section HighWater

variable {mark : UInt32} {n : Nat}

theorem ofNat_and_not_flag (hn : n ≤ queryPositionCap) :
    UInt32.ofNat n &&& ~~~exceptionalPlacementFlag = UInt32.ofNat n := by
  have hmask : (~~~exceptionalPlacementFlag).toNat = 2 ^ 31 - 1 := by decide
  apply UInt32.toNat_inj.mp
  rw [UInt32.toNat_and, hmask, Nat.and_two_pow_sub_one_eq_mod, UInt32.toNat_ofNat']
  unfold queryPositionCap at hn
  omega

theorem raise_and_not_flag (hn : n ≤ queryPositionCap) :
    ((mark &&& exceptionalPlacementFlag) ||| UInt32.ofNat n) &&& ~~~exceptionalPlacementFlag = UInt32.ofNat n := by
  conv_rhs => rw [← ofNat_and_not_flag hn]
  rw [← UInt32.toBitVec_inj]
  simp only [UInt32.toBitVec_and, UInt32.toBitVec_or, UInt32.toBitVec_not]
  ext i hi
  simp only [BitVec.getElem_and, BitVec.getElem_or, BitVec.getElem_not]
  grind

theorem raise_and_flag (hn : n ≤ queryPositionCap) :
    ((mark &&& exceptionalPlacementFlag) ||| UInt32.ofNat n) &&& exceptionalPlacementFlag =
      mark &&& exceptionalPlacementFlag := by
  rw [← ofNat_and_not_flag hn, ← UInt32.toBitVec_inj]
  simp only [UInt32.toBitVec_and, UInt32.toBitVec_or, UInt32.toBitVec_not]
  ext i hi
  simp only [BitVec.getElem_and, BitVec.getElem_or, BitVec.getElem_not]
  grind

theorem flag_and_not_flag :
    (mark ||| exceptionalPlacementFlag) &&& ~~~exceptionalPlacementFlag = mark &&& ~~~exceptionalPlacementFlag := by
  rw [← UInt32.toBitVec_inj]
  simp only [UInt32.toBitVec_and, UInt32.toBitVec_or, UInt32.toBitVec_not]
  ext i hi
  simp only [BitVec.getElem_and, BitVec.getElem_or, BitVec.getElem_not]
  grind

theorem flag_and_flag :
    (mark ||| exceptionalPlacementFlag) &&& exceptionalPlacementFlag = exceptionalPlacementFlag := by
  rw [← UInt32.toBitVec_inj]
  simp only [UInt32.toBitVec_and, UInt32.toBitVec_or]
  ext i hi
  simp only [BitVec.getElem_and, BitVec.getElem_or]
  grind

end HighWater

namespace ElasticTable

variable {K V : Type} {t : ElasticTable K V} {highWater : Nat}

def routeIn (t : ElasticTable K V) (level j : Nat) : PhiRoute :=
  ⟨(t.region level).capacity, elasticCounterBase level (j - 1)⟩

def exceptional (t : ElasticTable K V) : Bool := t.probeHighWater &&& exceptionalPlacementFlag != 0

def Ordered (pairs : List (Nat × Nat)) : Prop := pairs.Pairwise fun p q => phi (p.1 + 1) p.2 < phi (q.1 + 1) q.2

/-- The schedule holds every pair up to the mark but the first one, in strict order. -/
def Scheduled (t : ElasticTable K V) : Prop :=
  ∃ pairs, t.probeSchedule = pairs.map (fun p => t.routeIn p.1 p.2) ∧ Ordered pairs ∧
    ∀ level j, (level, j) ∈ pairs ↔ level < t.levels.length ∧ 0 < j ∧ phi (level + 1) j ≤ t.priorHighWater.toNat ∧
      ¬Direct level j

theorem Scheduled.mem (h : t.Scheduled) (r : PhiRoute) : r ∈ t.probeSchedule ↔ ∃ level j, level < t.levels.length ∧
    0 < j ∧ phi (level + 1) j ≤ t.priorHighWater.toNat ∧ ¬Direct level j ∧ r = t.routeIn level j := by
  obtain ⟨pairs, hschedule, -, hmem⟩ := h
  rw [hschedule, List.mem_map]
  constructor
  · rintro ⟨⟨level, j⟩, hpair, rfl⟩
    obtain ⟨hlevel, hj, hphi, hdirect⟩ := (hmem level j).mp hpair
    exact ⟨level, j, hlevel, hj, hphi, hdirect, rfl⟩
  · rintro ⟨level, j, hlevel, hj, hphi, hdirect, rfl⟩
    exact ⟨(level, j), (hmem level j).mpr ⟨hlevel, hj, hphi, hdirect⟩, rfl⟩

theorem Scheduled.congr {t' : ElasticTable K V} (h : t.Scheduled) (hschedule : t'.probeSchedule = t.probeSchedule)
    (hlevels : t'.levels.length = t.levels.length) (hprior : t'.priorHighWater = t.priorHighWater)
    (hroute : ∀ level j, t'.routeIn level j = t.routeIn level j) : t'.Scheduled := by
  obtain ⟨pairs, hpairs, hordered, hmem⟩ := h
  refine ⟨pairs, ?_, hordered, fun level j => ?_⟩
  · simp only [hschedule, hroute, hpairs]
  · rw [hlevels, hprior]
    exact hmem level j

theorem scheduled_nil (hschedule : t.probeSchedule = []) (hprior : t.priorHighWater.toNat = 0) : t.Scheduled := by
  refine ⟨[], hschedule, .nil, fun level j => ⟨fun h => (List.not_mem_nil h).elim, ?_⟩⟩
  rintro ⟨-, -, hphi, -⟩
  have := @phi_pos (level + 1) j (Nat.succ_pos _)
  omega

/-- The schedule of `t'` adds to that of `t` what lies between the marks. -/
structure Extended (t : ElasticTable K V) (highWater : Nat) (t' : ElasticTable K V) : Prop where
  eq : t' = { t with probeSchedule := t'.probeSchedule, probeHighWater := t'.probeHighWater }
  prior : t'.priorHighWater.toNat = max t.priorHighWater.toNat highWater
  flag : t'.exceptional = t.exceptional
  appended : ∃ pairs, t'.probeSchedule = t.probeSchedule ++ pairs.map (fun p => t.routeIn p.1 p.2) ∧ Ordered pairs ∧
    ∀ level j, (level, j) ∈ pairs ↔ level < t.levels.length ∧ 0 < j ∧ t.priorHighWater.toNat < phi (level + 1) j ∧
      phi (level + 1) j ≤ highWater ∧ ¬Direct level j

theorem Extended.scheduled {t' : ElasticTable K V} (h : t.Extended highWater t') (hs : t.Scheduled) :
    t'.Scheduled := by
  obtain ⟨old, hold, hordered, hmem⟩ := hs
  obtain ⟨new, hnew, hordered', hmem'⟩ := h.appended
  have heq := h.eq
  have hroute : ∀ level j, t'.routeIn level j = t.routeIn level j := fun level j => by rw [heq]; rfl
  have hlevels : t'.levels = t.levels := by rw [heq]
  refine ⟨old ++ new, ?_, ?_, fun level j => ?_⟩
  · rw [hnew, hold, List.map_append]
    simp only [hroute]
  · apply List.pairwise_append.mpr
    refine ⟨hordered, hordered', fun p hp q hq => ?_⟩
    have hbelow := ((hmem p.1 p.2).mp hp).2.2.1
    have habove := ((hmem' q.1 q.2).mp hq).2.2.1
    omega
  · rw [List.mem_append, hmem, hmem', hlevels, h.prior, le_max_iff]
    by_cases hprior : phi (level + 1) j ≤ t.priorHighWater.toNat
    · have : ¬t.priorHighWater.toNat < phi (level + 1) j := Nat.not_lt.mpr hprior
      tauto
    · have : t.priorHighWater.toNat < phi (level + 1) j := Nat.lt_of_not_le hprior
      tauto

theorem fill_routeOf {level j : Nat} (hl : level < 32) (hphi : phi (level + 1) j ≤ queryPositionCap) :
    { routeOf level j with rangeUpper := (t.region (routeOf level j).level).capacity } = t.routeIn level j := by
  have hprobe := probe_le_of_phi_le (Nat.succ_pos level) hphi
  have hlevel : (routeOf level j).level = level := elasticCounterLevel_base hl (by omega)
  rw [hlevel]
  rfl

theorem exists_pairs {P : Nat → Nat → Prop} {routes : List PhiRoute}
    (h : ∀ r ∈ routes, ∃ level j, P level j ∧ r = routeOf level j) :
    ∃ pairs : List (Nat × Nat), routes = pairs.map (fun p => routeOf p.1 p.2) ∧ ∀ p ∈ pairs, P p.1 p.2 := by
  induction routes with
  | nil => exact ⟨[], rfl, fun _ h => (List.not_mem_nil h).elim⟩
  | cons r routes ih =>
    obtain ⟨⟨level, j, hP, rfl⟩, hroutes⟩ := List.forall_mem_cons.mp h
    obtain ⟨pairs, rfl, hpairs⟩ := ih hroutes
    exact ⟨(level, j) :: pairs, rfl, List.forall_mem_cons.mpr ⟨hP, hpairs⟩⟩

theorem extendProbeSchedule_spec (hlevels : t.levels.length ≤ 32) (hcap : highWater ≤ queryPositionCap) :
    ∃ t', t.extendProbeSchedule highWater = .ok t' ∧ t.Extended highWater t' := by
  rw [extendProbeSchedule, if_neg (Nat.not_lt.mpr hcap)]
  by_cases hle : highWater ≤ t.priorHighWater.toNat
  · rw [if_pos hle]
    refine ⟨t, rfl, rfl, (Nat.max_eq_left hle).symm, rfl, [], (List.append_nil _).symm, .nil, fun level j => ?_⟩
    constructor
    · intro h
      cases h
    · rintro ⟨-, -, hprior, hphi, -⟩
      omega
  · rw [if_neg hle]
    have hsmall : ∀ level ∈ List.range t.levels.length, level < 32 := fun level hlevel =>
      Nat.lt_of_lt_of_le (List.mem_range.mp hlevel) hlevels
    obtain ⟨routes, hroutes, hspec⟩ := mapM_ok fun level hlevel =>
      @newRoutes_spec level (hsmall level hlevel) t.priorHighWater.toNat highWater hcap
    have hmem := fun r => @Slots.mem_flatten_of_forall₂ _ _ _ _ _ (hspec.imp fun _ _ h => h.2) r
    have hdistinct := flatten_distinct List.nodup_range
      (fun level r ⟨j, hj, _, hphi, _, hr⟩ => ⟨j, hj, Nat.le_trans hphi hcap, hr⟩) hspec
    have hordered := sortRoutes_ordered hdistinct
    obtain ⟨pairs, hpairs, hvalid⟩ := @exists_pairs
      (fun level j => level < t.levels.length ∧ 0 < j ∧ t.priorHighWater.toNat < phi (level + 1) j ∧
        phi (level + 1) j ≤ highWater ∧ ¬Direct level j) (sortRoutes routes.flatten) (by
        intro r hr
        obtain ⟨level, hlevel, j, hj, hprior, hphi, hdirect, rfl⟩ := (hmem r).mp (mem_sortRoutes.mp hr)
        exact ⟨level, j, ⟨List.mem_range.mp hlevel, hj, hprior, hphi, hdirect⟩, rfl⟩)
    rw [hroutes, ok_bind]
    refine ⟨_, rfl, rfl, ?_, ?_, pairs, ?_, ?_, fun level j => ⟨hvalid (level, j), ?_⟩⟩
    · unfold priorHighWater at hle ⊢
      dsimp only
      rw [raise_and_not_flag hcap, UInt32.toNat_ofNat']
      unfold queryPositionCap at hcap
      omega
    · unfold exceptional
      dsimp only
      rw [raise_and_flag hcap]
    · dsimp only
      rw [hpairs, List.map_map]
      congr 1
      apply List.map_congr_left
      intro p hp
      obtain ⟨hlevel, -, -, hphi, -⟩ := hvalid p hp
      exact fill_routeOf (Nat.lt_of_lt_of_le hlevel hlevels) (Nat.le_trans hphi hcap)
    · rw [hpairs] at hordered
      exact (List.pairwise_map.mp hordered).imp id
    · rintro ⟨hlevel, hj, hprior, hphi, hdirect⟩
      have hroute : routeOf level j ∈ sortRoutes routes.flatten :=
        mem_sortRoutes.mpr ((hmem _).mpr ⟨level, List.mem_range.mpr hlevel, j, hj, hprior, hphi, hdirect, rfl⟩)
      rw [hpairs] at hroute
      obtain ⟨⟨level', j'⟩, hpair, hsame⟩ := List.mem_map.mp hroute
      obtain ⟨-, hj', -, hphi', -⟩ := hvalid _ hpair
      have hlt : phi (level' + 1) j' < 2 ^ 128 := by
        dsimp only at hphi'
        unfold queryPositionCap at hcap
        omega
      obtain ⟨hsucc, rfl⟩ := phi_injective (Nat.succ_pos level') hj' (Nat.succ_pos level) hj hlt
        (congrArg PhiRoute.rangeUpper hsame)
      obtain rfl := Nat.succ.inj hsucc
      exact hpair

end ElasticTable

end Opthash.Elastic
