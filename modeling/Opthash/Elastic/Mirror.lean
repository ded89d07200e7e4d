import Opthash.Elastic.Filling
import Opthash.Exact.Query
import Opthash.Exact.Reduction
import Opthash.Shell.Spec

namespace Opthash.Reference.ScalarElastic

open Probe Opthash.Elastic

variable {s : ScalarElastic} {identity : UInt64} {level logical : Nat}

def productionLimits : ScalarElasticLimits := ⟨elasticProbeBudgetC, rangeWordCap, uniformSearchCap, queryPositionCap⟩

section Route

theorem elasticOracleWord_ok {seed : UInt64} {rejection : Nat} {word : UInt64}
    (h : elasticOracleWord seed identity level logical rejection = some word) :
    level < elasticLevelLimit ∧ logical < elasticLogicalLimit := by
  obtain ⟨counter, hcounter, -⟩ := Option.map_eq_some_iff.mp h
  rw [tryPackElasticCounter] at hcounter
  split at hcounter
  · cases hcounter
  · omega

theorem routeFrom_eq {upper : Nat} (hlevel : level < elasticLevelLimit) (hlogical : logical < elasticLogicalLimit)
    {n i : Nat} (hn : i + n ≤ elasticRejectionLimit) :
    s.routeFrom level identity logical upper n i =
      (reduceProbeWordsFrom upper (rejectionThresholdOf upper)
        ((prepareElastic s.seed identity).wordFromCounterBase (elasticCounterBase level logical)) n i).map
          ProbeIndex.index := by
  induction n generalizing i with
  | zero => rfl
  | succ n ih =>
    have hword : elasticOracleWord s.seed identity level logical i = _ := counterPrf_word hlevel hlogical (by omega)
    rw [routeFrom, hword, Option.bind_eq_bind, Option.bind_some, reduceProbeWordsFrom]
    cases acceptWord ((prepareElastic s.seed identity).wordFromCounterBase (elasticCounterBase level logical) i) upper
      (rejectionThresholdOf upper) with
    | some index => rfl
    | none => exact ih (by omega)

theorem route_ok {global : Nat} (hseed : s.seed = elasticProbeSeed) (hlimits : s.limits = productionLimits)
    (hsmall : ∀ length ∈ s.levels, length < 2 ^ 64) (h : s.route level identity logical = some global) :
    ∃ upper offset index, s.levels[level]? = some upper ∧ s.offsets[level]? = some offset ∧ global = offset + index ∧
      routePreparedCounterForUpper (PreparedElasticKey.new identity).probe (elasticCounterBase level logical) upper =
        some index := by
  obtain ⟨upper, hupper, h⟩ := Option.bind_eq_some_iff.mp h
  obtain ⟨offset, hoffset, h⟩ := Option.bind_eq_some_iff.mp h
  split at h
  · cases h
  rename_i hpos
  obtain ⟨index, hindex, h⟩ := Option.bind_eq_some_iff.mp h
  refine ⟨upper, offset, index, hupper, hoffset, (Option.some.inj h).symm, ?_⟩
  rw [hlimits] at hindex
  change s.routeFrom level identity logical upper rangeWordCap 0 = some index at hindex
  have hwords : ∃ word, elasticOracleWord s.seed identity level logical 0 = some word := by
    obtain ⟨word, hword, -⟩ := Option.bind_eq_some_iff.mp hindex
    exact ⟨word, hword⟩
  obtain ⟨word, hword⟩ := hwords
  obtain ⟨hlevel, hlogical⟩ := elasticOracleWord_ok hword
  have hreduced : s.routeFrom level identity logical upper rangeWordCap 0 = _ :=
    routeFrom_eq hlevel hlogical (by decide)
  rw [hindex, hseed] at hreduced
  obtain ⟨probe, hprobe, rfl⟩ := Option.map_eq_some_iff.mp hreduced.symm
  have hprobe' : reduceProbeWordsFrom upper (rejectionThresholdOf upper)
      ((PreparedElasticKey.new identity).probe.wordFromCounterBase (elasticCounterBase level logical)) rangeWordCap 0 =
        some probe := hprobe
  rw [routePreparedCounterForUpper, elasticReducer_eq (hsmall upper (List.mem_of_getElem? hupper)) (by decide),
    reduceProbeWords, if_neg hpos, hprobe']

theorem route_of_index {upper offset index : Nat} (hseed : s.seed = elasticProbeSeed)
    (hlimits : s.limits = productionLimits) (hlevel : level < elasticLevelLimit) (hlogical : logical < elasticLogicalLimit)
    (hsmall : upper < 2 ^ 64) (hupper : s.levels[level]? = some upper) (hoffset : s.offsets[level]? = some offset)
    (h : routePreparedCounterForUpper (PreparedElasticKey.new identity).probe (elasticCounterBase level logical) upper =
      some index) : s.route level identity logical = some (offset + index) := by
  rw [routePreparedCounterForUpper, elasticReducer_eq hsmall (by decide), reduceProbeWords] at h
  by_cases hpos : upper = 0
  · rw [if_pos hpos] at h
    cases h
  rw [if_neg hpos] at h
  have hreduced : s.routeFrom level identity logical upper rangeWordCap 0 = _ :=
    routeFrom_eq hlevel hlogical (by decide)
  rw [hseed] at hreduced
  have hfrom : s.routeFrom level identity logical upper s.limits.rangeWordCap 0 = some index := by
    rw [hlimits]
    refine hreduced.trans ?_
    change Option.map _ (reduceProbeWordsFrom upper (rejectionThresholdOf upper)
      ((PreparedElasticKey.new identity).probe.wordFromCounterBase (elasticCounterBase level logical)) rangeWordCap 0) = _
    cases hwords : reduceProbeWordsFrom upper (rejectionThresholdOf upper)
      ((PreparedElasticKey.new identity).probe.wordFromCounterBase (elasticCounterBase level logical)) rangeWordCap 0 with
    | none =>
      rw [hwords] at h
      cases h
    | some probe =>
      rw [hwords] at h
      exact h
  simp only [route, hupper, hoffset, hfrom, Option.bind_eq_bind, Option.bind_some, if_neg hpos]

end Route

end Opthash.Reference.ScalarElastic

namespace Opthash.Elastic.ElasticTable

open Exec Probe Opthash.Geometry Reference

variable {W K V : Type} {group : GroupBackend} {u : User W K V} {t t' : ElasticTable K V} {k : K} {v : V} {x : UInt64}
  {g : ElasticGeometry} {d : Nat} {s s' : ScalarElastic} {hash : K → UInt64} {loc loc' : Nat × Nat} {e : K × V}

section Slots

theorem offsetsFrom_getElem? (offset : Nat) (lengths : List Nat) (i : Nat) :
    (ScalarElastic.offsetsFrom offset lengths)[i]? = (lengths[i]?).map fun _ => offset + (lengths.take i).sum := by
  induction lengths generalizing offset i with
  | nil => simp [ScalarElastic.offsetsFrom]
  | cons length lengths ih =>
    cases i with
    | zero => simp [ScalarElastic.offsetsFrom]
    | succ i => simp [ScalarElastic.offsetsFrom, ih, Nat.add_assoc]

/-- The slots of the levels one after another. -/
def globalSlot (t : ElasticTable K V) (loc : Nat × Nat) : Nat := (t.capacities.take loc.1).sum + loc.2

theorem take_sum_lt {lengths : List Nat} {i j a : Nat} (ha : a < lengths.getD i 0) (h : i < j) :
    (lengths.take i).sum + a < (lengths.take j).sum := by
  induction lengths generalizing i j with
  | nil => simp at ha
  | cons length lengths ih =>
    cases j with
    | zero => exact absurd h (Nat.not_lt_zero i)
    | succ j =>
      cases i with
      | zero =>
        have hlt : a < length := ha
        simp only [List.take_zero, List.sum_nil, List.take_succ_cons, List.sum_cons]
        omega
      | succ i =>
        have hrest := ih (i := i) (j := j) (by simpa using ha) (Nat.lt_of_succ_lt_succ h)
        simp only [List.take_succ_cons, List.sum_cons]
        omega

theorem globalSlot_inj (hloc : loc.2 < (t.region loc.1).capacity) (hloc' : loc'.2 < (t.region loc'.1).capacity)
    (h : t.globalSlot loc = t.globalSlot loc') : loc = loc' := by
  rw [capacity_region] at hloc hloc'
  unfold globalSlot at h
  rcases Nat.lt_trichotomy loc.1 loc'.1 with hlt | heq | hlt
  · have := take_sum_lt hloc hlt
    omega
  · rw [heq] at h
    exact Prod.ext heq (by omega)
  · have := take_sum_lt hloc' hlt
    omega

theorem globalSlot_lt (hloc : loc.2 < (t.region loc.1).capacity) : t.globalSlot loc < t.capacities.sum := by
  rw [capacity_region] at hloc
  have hlt := take_sum_lt hloc (Nat.lt_add_one loc.1)
  have hsplit := List.sum_take_add_sum_drop t.capacities (loc.1 + 1)
  unfold globalSlot
  omega

theorem Blank.region (h : t.Blank g) (level : Nat) : t.region level = .empty ((t.region level).capacity) := by
  rw [ElasticTable.region, h.levels, List.getElem?_map]
  cases g.levelCapacities[level]? <;> rfl

theorem Prepared.globalSlot {t₁ : ElasticTable K V} (h : t.Prepared t₁) : t₁.globalSlot loc = t.globalSlot loc := by
  rw [ElasticTable.globalSlot, h.toExtends.capacities, ElasticTable.globalSlot]

theorem globalSlot_place : (t.place loc k v x).globalSlot loc' = t.globalSlot loc' := by
  rw [globalSlot, samePlan_place.capacities, globalSlot]

end Slots

/-- The oracle is where the table is: its loads are the table's, and its slots hold the hashes of the keys that the
table's slots hold. -/
structure Mirrors (hash : K → UInt64) (s : ScalarElastic) (t : ElasticTable K V) : Prop where
  seed : s.seed = elasticProbeSeed
  limits : s.limits = ScalarElastic.productionLimits
  exponent : s.config.reserveExponent = t.reserveFraction.exponent
  levels : s.levels = t.capacities
  offsets : s.offsets = ScalarElastic.offsetsFrom 0 s.levels
  len : s.len = t.len
  occupancy : s.occupancy = t.loads
  slots : s.slots.length = s.levels.sum
  free : ∀ loc, loc.2 < (t.region loc.1).capacity →
    (s.slots[t.globalSlot loc]? = some none ↔ isFree ((t.region loc.1).ctrl loc.2))
  held : ∀ loc e, t.Holds loc e → s.slots[t.globalSlot loc]? = some (some (hash e.1))

namespace Mirrors

variable (h : Mirrors hash s t) (hw : t.Wf)
include h

theorem offset {level : Nat} {l : Level K V} (hl : t.levels[level]? = some l) :
    s.offsets[level]? = some (t.capacities.take level).sum := by
  rw [h.offsets, offsetsFrom_getElem?, h.levels, capacities, List.getElem?_map, hl]
  simp

theorem level {level : Nat} {l : Level K V} (hl : t.levels[level]? = some l) :
    s.levels[level]? = some l.region.capacity := by
  rw [h.levels, capacities, List.getElem?_map, hl]
  rfl

theorem level_some {level upper : Nat} (hupper : s.levels[level]? = some upper) :
    ∃ l, t.levels[level]? = some l ∧ l.region.capacity = upper := by
  rw [h.levels, capacities, List.getElem?_map] at hupper
  exact Option.map_eq_some_iff.mp hupper

theorem load {level : Nat} {l : Level K V} (hl : t.levels[level]? = some l) : s.occupancy[level]? = some l.len := by
  rw [h.occupancy, loads, List.getElem?_map, hl]
  rfl

include hw

theorem small : ∀ length ∈ s.levels, length < 2 ^ 64 := by
  rw [h.levels]
  intro length hlength
  have := hw.small length hlength
  unfold u32Max at this
  omega

theorem slotAt_lt {position global : Nat} (hslot : s.slotAt x position = some global) : global < s.slots.length := by
  obtain ⟨upper, offset, index, hupper, hoffset, rfl, hindex⟩ :=
    ScalarElastic.route_ok h.seed h.limits (h.small hw) hslot
  obtain ⟨l, hl, rfl⟩ := h.level_some hupper
  obtain rfl := Option.some.inj (hoffset.symm.trans (h.offset hl))
  generalize (s.mapped position).getD (0, 0) = probe at hl hindex
  have hlt : index < (t.region probe.1).capacity := by
    apply probeSlot_lt (x := x) (j := probe.2 + 1) hw
    rw [probeSlot, region_of_getElem? hl]
    exact hindex
  have hglobal : t.globalSlot (probe.1, index) < _ := globalSlot_lt hlt
  rw [h.slots, h.levels]
  exact hglobal

theorem slotAt_phi {level j slot position : Nat} (hlevel : level < t.levels.length) (hj : 0 < j)
    (hprobe : t.probeSlot x level j = some slot) (hposition : elasticPhi (level + 1) j = .ok position)
    (hcap : position ≤ queryPositionCap) : s.slotAt x position = some (t.globalSlot (level, slot)) := by
  obtain ⟨l, -, hl, hregion⟩ := level_of_lt hlevel
  have hlevels : level + 1 ≤ s.levels.length := by
    rw [h.levels, capacities, List.length_map]
    exact hlevel
  have hsmall := h.small hw _ (List.mem_of_getElem? (h.level hl))
  obtain ⟨-, -, -, hphi⟩ := elasticPhi_ok_iff.mp hposition
  have hprobes := probe_le_of_phi_le (Nat.succ_pos level) (hphi ▸ hcap)
  have h32 := Nat.lt_of_lt_of_le hlevel hw.levels
  rw [probeSlot, hregion] at hprobe
  have hlogical : j - 1 < elasticLogicalLimit := by
    change j - 1 < 2 ^ 13
    omega
  rw [ScalarElastic.slotAt, ScalarElastic.mapped, elasticPhiInverse_iff.mpr hposition]
  dsimp only
  rw [if_pos hlevels]
  exact ScalarElastic.route_of_index h.seed h.limits h32 hlogical hsmall (h.level hl) (h.offset hl) hprobe

theorem vacancy {level logical : Nat} {found : Option Nat} (hvacancy : s.vacancy level x logical = some found) :
    t.vacancy level (PreparedElasticKey.new x).probe logical = found := by
  obtain ⟨global, hroute, hvacancy⟩ := Option.bind_eq_some_iff.mp hvacancy
  obtain ⟨offset, hoffset, hvacancy⟩ := Option.bind_eq_some_iff.mp hvacancy
  obtain ⟨slot, hslot, hfound⟩ := Option.bind_eq_some_iff.mp hvacancy
  obtain ⟨upper, offset', index, hupper, hoffset', rfl, hindex⟩ :=
    ScalarElastic.route_ok h.seed h.limits (h.small hw) hroute
  obtain rfl := Option.some.inj (hoffset.symm.trans hoffset')
  obtain ⟨l, hl, rfl⟩ := h.level_some hupper
  rw [h.offset hl] at hoffset
  obtain rfl := Option.some.inj hoffset
  have hregion := region_of_getElem? hl
  have hrouted : t.routePrepared level (PreparedElasticKey.new x).probe logical = some index := by
    rw [routePrepared, hl]
    exact hindex
  have hlt : index < (t.region level).capacity := by
    apply probeSlot_lt (x := x) (j := logical + 1) hw
    rw [probeSlot, hregion]
    exact hindex
  have hfree := h.free (level, index) hlt
  have hglobal : t.globalSlot (level, index) = (t.capacities.take level).sum + index := rfl
  rw [hglobal, hslot] at hfree
  have hsub : (t.capacities.take level).sum + index - (t.capacities.take level).sum = index := by omega
  rw [hsub] at hfound
  rw [ElasticTable.vacancy, hrouted, Option.bind_eq_bind, Option.bind_some, ← Option.some.inj hfound]
  cases slot with
  | none => rw [if_pos (hfree.mp rfl)]; rfl
  | some stored =>
    have hnot : ¬isFree ((t.region level).ctrl index) := fun hctrl => by simpa using hfree.mpr hctrl
    rw [if_neg hnot]
    rfl

theorem firstVacancyFrom {level n i : Nat} {found : Option (Nat × Nat)}
    (hfirst : s.firstVacancyFrom level x n i = some found) :
    (List.range' i n).findSome? (fun logical =>
      (t.vacancy level (PreparedElasticKey.new x).probe logical).map fun slot => (slot, logical + 1)) = found := by
  induction n generalizing i with
  | zero => exact Option.some.inj hfirst
  | succ n ih =>
    obtain ⟨answer, hanswer, hfirst⟩ := Option.bind_eq_some_iff.mp hfirst
    rw [List.range'_succ, List.findSome?_cons, h.vacancy hw hanswer]
    cases answer with
    | some slot => exact Option.some.inj hfirst
    | none => exact ih hfirst

theorem firstVacancy {level n : Nat} {found : Option (Nat × Nat)} (hfirst : s.firstVacancyFrom level x n 0 = some found) :
    t.firstVacancy (PreparedElasticKey.new x).probe level n = found := by
  rw [ElasticTable.firstVacancy, List.range_eq_range']
  exact h.firstVacancyFrom hw hfirst

end Mirrors

section Prefixes

variable {probe : PreparedElasticProbe} {level n n' slot j : Nat}

theorem firstVacancy_append (m n : Nat) : t.firstVacancy probe level (m + n) =
    (t.firstVacancy probe level m).or ((List.range' m n).findSome? fun logical =>
      (t.vacancy level probe logical).map fun slot => (slot, logical + 1)) := by
  rw [firstVacancy, List.range_eq_range', ← List.range'_append_1, List.findSome?_append, firstVacancy, List.range_eq_range',
    Nat.zero_add]

theorem firstVacancy_of_le (h : t.firstVacancy (PreparedElasticKey.new x).probe level n = some (slot, j)) (hj : j ≤ n') :
    t.firstVacancy (PreparedElasticKey.new x).probe level n' = some (slot, j) := by
  rcases Nat.le_total n n' with hle | hle
  · obtain ⟨m, rfl⟩ := Nat.exists_eq_add_of_le hle
    rw [firstVacancy_append, h, Option.some_or]
  · obtain ⟨m, rfl⟩ := Nat.exists_eq_add_of_le hle
    rw [firstVacancy_append] at h
    cases hfirst : t.firstVacancy (PreparedElasticKey.new x).probe level n' with
    | some found =>
      rw [hfirst, Option.some_or] at h
      exact h
    | none =>
      rw [hfirst, Option.none_or] at h
      obtain ⟨index, hindex, hmap⟩ := List.exists_of_findSome?_eq_some h
      obtain ⟨found, -, heq⟩ := Option.map_eq_some_iff.mp hmap
      have hlow := (List.mem_range'_1.mp hindex).1
      cases heq
      omega

theorem firstVacancy_none_of_le (h : t.firstVacancy probe level n = none) (hle : n' ≤ n) :
    t.firstVacancy probe level n' = none := by
  obtain ⟨m, rfl⟩ := Nat.exists_eq_add_of_le hle
  rw [firstVacancy_append] at h
  exact (Option.or_eq_none_iff.mp h).1

end Prefixes

namespace Mirrors

variable {level slot j position batch : Nat}

theorem within (hw : t.Wf) {n : Nat} (hfirst : t.firstVacancy (PreparedElasticKey.new x).probe level n = some (slot, j))
    (hposition : elasticPhi (level + 1) j = .ok position) (hcap : position ≤ queryPositionCap) :
    j ≤ levelProbeLimit level := by
  obtain ⟨hoffers, -⟩ := firstVacancy_spec hfirst
  exact (tried_iff hw hoffers.lt hoffers.pos).mpr ⟨position, hposition, hcap⟩

theorem uniform (h : Mirrors hash s t) (hw : t.Wf) (huniform : s.uniformVacancy level x = some (slot, j))
    (hposition : elasticPhi (level + 1) j = .ok position) (hcap : position ≤ queryPositionCap) :
    t.firstVacancy (PreparedElasticKey.new x).probe level (levelProbeLimit level) = some (slot, j) := by
  obtain ⟨found, hfirst, rfl⟩ := Option.bind_eq_some_iff.mp huniform
  have hsearch := h.firstVacancy hw hfirst
  exact firstVacancy_of_le hsearch (within hw hsearch hposition hcap)

theorem currentLow (h : Mirrors hash s t) {current : Level K V} :
    current.region.capacity - current.len ≤ floorDivPow2 current.region.capacity (s.config.reserveExponent + 1) ↔
      t.CurrentLow current := by
  rw [h.exponent]
  rfl

theorem nextLow (hw : t.Wf) {next : Level K V} (hnext : t.levels[level]? = some next) :
    next.region.capacity - next.len ≤ next.region.capacity / 4 ↔ NextLow next := by
  rw [nextLow_iff (hw.small _ (List.mem_map_of_mem (List.mem_of_getElem? hnext)))]
  unfold ceilThreeQuarters
  omega

/-- The oracle's rule is one of the table's searches, and it stops at the same probe. -/
theorem searches (h : Mirrors hash s t) (hw : t.Wf) {case : ElasticCase}
    (hchoose : s.choose x batch = some (case, level, slot, j)) (hposition : elasticPhi (level + 1) j = .ok position)
    (hcap : position ≤ queryPositionCap) :
    ∃ n, t.Searches x (if batch = 0 then .bootstrap else .levelPair (batch - 1)) level n ∧
      t.firstVacancy (PreparedElasticKey.new x).probe level n = some (slot, j) := by
  rw [ScalarElastic.choose] at hchoose
  split at hchoose
  · rename_i hbatch
    obtain ⟨⟨slot', j'⟩, huniform, hchoose⟩ := Option.bind_eq_some_iff.mp hchoose
    cases hchoose
    have hfirst := h.uniform hw huniform hposition hcap
    obtain ⟨hoffers, -⟩ := firstVacancy_spec hfirst
    rw [if_pos hbatch]
    exact ⟨_, .bootstrap (List.ne_nil_of_length_pos hoffers.lt), hfirst⟩
  rename_i hbatch
  rw [if_neg hbatch]
  obtain ⟨i, rfl⟩ := Nat.exists_eq_succ_of_ne_zero hbatch
  simp only [Nat.succ_eq_add_one, Nat.add_sub_cancel] at hchoose ⊢
  obtain ⟨upper, hupper, hchoose⟩ := Option.bind_eq_some_iff.mp hchoose
  obtain ⟨upper', hupper', hchoose⟩ := Option.bind_eq_some_iff.mp hchoose
  obtain ⟨current, hcurrent, rfl⟩ := h.level_some hupper
  obtain ⟨next, hnext, rfl⟩ := h.level_some hupper'
  have hpair : t.Pair i current next := ⟨hcurrent, hnext⟩
  rw [h.load hcurrent, Option.bind_eq_bind, Option.bind_some, h.load hnext, Option.bind_eq_bind,
    Option.bind_some] at hchoose
  split at hchoose
  · cases hchoose
  split at hchoose
  · rename_i hlow
    obtain ⟨⟨slot', j'⟩, huniform, hchoose⟩ := Option.bind_eq_some_iff.mp hchoose
    cases hchoose
    exact ⟨_, .nearlyFull hpair (h.currentLow.mp hlow), h.uniform hw huniform hposition hcap⟩
  rename_i hlow
  rw [h.currentLow] at hlow
  split at hchoose
  · rename_i hnextLow
    obtain ⟨⟨slot', j'⟩, huniform, hchoose⟩ := Option.bind_eq_some_iff.mp hchoose
    cases hchoose
    exact ⟨_, .nextNearlyFull hpair hlow ((nextLow hw hnext).mp hnextLow), h.uniform hw huniform hposition hcap⟩
  rename_i hnextLow
  rw [nextLow hw hnext] at hnextLow
  obtain ⟨budget, hbudget, hchoose⟩ := Option.bind_eq_some_iff.mp hchoose
  rw [h.limits, h.exponent] at hbudget
  obtain ⟨k, -, hok⟩ := bounded_budget hw hpair hlow
  obtain rfl : elasticProbeBudgetC * min (k ^ 2) t.reserveFraction.exponent = budget := by
    change (elasticDyadicProbeBudget current.freeSlots current.region.capacity t.reserveFraction.exponent
      elasticProbeBudgetC).toOption = _ at hbudget
    rw [hok] at hbudget
    exact Option.some.inj hbudget
  obtain ⟨found, hbounded, hchoose⟩ := Option.bind_eq_some_iff.mp hchoose
  have hsearch := h.firstVacancy hw hbounded
  cases found with
  | some found =>
    cases hchoose
    have hlimit := within hw hsearch hposition hcap
    obtain ⟨-, hj⟩ := firstVacancy_spec hsearch
    exact ⟨_, .bounded hpair hlow hnextLow hok, firstVacancy_of_le hsearch (Nat.le_min.mpr ⟨hj, hlimit⟩)⟩
  | none =>
    obtain ⟨⟨slot', j'⟩, huniform, hchoose⟩ := Option.bind_eq_some_iff.mp hchoose
    cases hchoose
    exact ⟨_, .fallback hpair hlow hnextLow hok (firstVacancy_none_of_le hsearch (Nat.min_le_left ..)),
      h.uniform hw huniform hposition hcap⟩

def placed (s : ScalarElastic) (x : UInt64) (location : ScalarElasticLocation) : ScalarElastic :=
  { s with
    slots := s.slots.set location.globalSlot (some x)
    occupancy := s.occupancy.modify location.level (· + 1)
    len := s.len + 1 }

structure Chose (s : ScalarElastic) (t : ElasticTable K V) (x : UInt64) (placement : ScalarElasticInsertion)
    (s' : ScalarElastic) : Prop where
  fresh : some x ∉ s.slots
  room : t.len < t.maxInsertions
  targeted : t.targeted x = some ⟨placement.location.level, placement.location.slotInLevel, placement.phi⟩
  global : placement.location.globalSlot = t.globalSlot (placement.location.level, placement.location.slotInLevel)
  probed : ∃ j, 0 < j ∧ t.probeSlot x placement.location.level j = some placement.location.slotInLevel ∧
    elasticPhi (placement.location.level + 1) j = .ok placement.phi
  le : placement.phi ≤ queryPositionCap
  after : s' = placed s x placement.location

theorem activeBatch_spec (hlen : s.len < usizeMax) {batch : Nat} (hactive : s.activeBatch = some batch) :
    batchAt s.quotas s.len = batch ∧ s.len < s.quotas.sum := by
  refine ⟨by rw [batchAt_activeBatch hlen, hactive]; rfl, ?_⟩
  have hspec := @activeBatchFrom_spec s 0 0 s.quotas
  rw [ScalarElastic.activeBatch] at hactive
  rw [hactive] at hspec
  obtain ⟨i, -, -, hsum, -⟩ := hspec
  have hsplit := List.sum_take_add_sum_drop s.quotas (i + 1)
  omega

theorem chose (h : Mirrors hash s t) (hs : Staged g d t) (hquotas : s.quotas = g.batchPlan)
    {placement : ScalarElasticInsertion} (hinsert : s.insert x = some (placement, s')) : Chose s t x placement s' := by
  rw [ScalarElastic.insert] at hinsert
  split at hinsert
  · cases hinsert
  rename_i hfresh
  obtain ⟨batch, hactive, hinsert⟩ := Option.bind_eq_some_iff.mp hinsert
  obtain ⟨⟨case, level, slot, j⟩, hchoose, hinsert⟩ := Option.bind_eq_some_iff.mp hinsert
  obtain ⟨offset, hoffset, hinsert⟩ := Option.bind_eq_some_iff.mp hinsert
  dsimp only at hinsert
  split at hinsert
  · cases hinsert
  obtain ⟨position, hposition, hinsert⟩ := Option.bind_eq_some_iff.mp hinsert
  split at hinsert
  · cases hinsert
  rename_i hcap
  cases hinsert
  rw [h.limits] at hcap
  have hcap : position ≤ queryPositionCap := Nat.le_of_not_lt hcap
  have hposition : elasticPhi (level + 1) j = .ok position := by
    cases hphi : elasticPhi (level + 1) j with
    | ok position' =>
      rw [hphi] at hposition
      exact congrArg Except.ok (Option.some.inj hposition)
    | error e =>
      rw [hphi] at hposition
      cases hposition
  have hlimit : g.batchPlan.sum ≤ t.maxInsertions := by
    rw [hs.planned.plan, batchQuotasFrom_sum, hs.maxInsertions]
    exact Nat.min_le_right ..
  have hsmall : s.len < usizeMax := by
    rw [h.len]
    exact hs.small
  obtain ⟨hbatch, hroom⟩ := activeBatch_spec hsmall hactive
  rw [hquotas, h.len] at hroom
  obtain ⟨n, hsearch, hfirst⟩ := h.searches hs.wf hchoose hposition hcap
  obtain ⟨position', -, hposition', -, hoffers, -, hchosen⟩ := hsearch.returned hs.wf hfirst
  obtain rfl : position = position' := Except.ok.inj (hposition.symm.trans hposition')
  obtain ⟨l, -, hl, -⟩ := level_of_lt hoffers.lt
  obtain rfl := Option.some.inj (hoffset.symm.trans (h.offset hl))
  refine ⟨by simpa using hfresh, Nat.lt_of_lt_of_le hroom hlimit, ?_, rfl, ⟨j, hoffers.pos, hoffers.probed, hposition⟩, hcap,
    rfl⟩
  rw [targeted, (hs.scheduler.target t.len).1, targetAt, ← hquotas, ← h.len, hbatch]
  exact hchosen

theorem prepared {t₁ : ElasticTable K V} (h : Mirrors hash s t) (hp : t.Prepared t₁) : Mirrors hash s t₁ where
  seed := h.seed
  limits := h.limits
  exponent := by rw [h.exponent, hp.eq]
  levels := h.levels.trans hp.toExtends.capacities.symm
  offsets := h.offsets
  len := h.len.trans hp.len.symm
  occupancy := by rw [h.occupancy, loads, loads, hp.levels]
  slots := h.slots
  free := by
    intro loc hlt
    rw [hp.region] at hlt
    rw [hp.globalSlot, hp.region]
    exact h.free loc hlt
  held := by
    intro loc e he
    rw [hp.globalSlot]
    exact h.held loc e (hp.holds.mp he)

theorem place (h : Mirrors hash s t) (ht : t.Target (hash k) loc) {location : ScalarElasticLocation}
    (hlevel : location.level = loc.1) (hglobal : location.globalSlot = t.globalSlot loc) :
    Mirrors hash (placed s (hash k) location) (t.place loc k v (hash k)) := by
  have hlt := ht.vacant.slot
  have hempty : s.slots[t.globalSlot loc]? = some none := (h.free loc hlt).mpr ht.vacant.free
  have hin : t.globalSlot loc < s.slots.length := (List.getElem?_eq_some_iff.mp hempty).1
  have hslots : (placed s (hash k) location).slots = s.slots.set (t.globalSlot loc) (some (hash k)) := by
    rw [placed, hglobal]
  have hself : (s.slots.set (t.globalSlot loc) (some (hash k)))[t.globalSlot loc]? = some (some (hash k)) := by
    rw [List.getElem?_set_self hin]
  have hother : ∀ loc', loc'.2 < (t.region loc'.1).capacity → loc' ≠ loc →
      (s.slots.set (t.globalSlot loc) (some (hash k)))[t.globalSlot loc']? = s.slots[t.globalSlot loc']? := by
    intro loc' hlt' hne
    rw [List.getElem?_set_ne]
    exact fun heq => hne (globalSlot_inj hlt hlt' heq).symm
  exact {
    seed := h.seed
    limits := h.limits
    exponent := h.exponent
    levels := h.levels.trans samePlan_place.capacities.symm
    offsets := h.offsets
    len := congrArg (· + 1) h.len
    occupancy := by rw [placed, loads_place, h.occupancy, hlevel]
    slots := by rw [hslots, List.length_set]; exact h.slots
    free := by
      intro loc' hlt'
      rw [capacity_region, samePlan_place.capacities, ← capacity_region] at hlt'
      rw [hslots, globalSlot_place]
      by_cases hloc : loc' = loc
      · rw [hloc, hself, (lodged_place ht).fingerprint]
        simp [isFree_eq_not, isOccupied_controlFingerprint]
      · rw [hother loc' hlt' hloc, ctrl_place_of_ne ht.vacant hloc]
        exact h.free loc' hlt'
    held := by
      intro loc' e he
      rw [hslots, globalSlot_place]
      rcases (holds_place ht.vacant).mp he with ⟨rfl, rfl⟩ | ⟨hne, he⟩
      · exact hself
      · rw [hother loc' he.1 hne]
        exact h.held loc' e he }

end Mirrors

structure Unused (g : ElasticGeometry) (d : Nat) (s : ScalarElastic) : Prop where
  seed : s.seed = elasticProbeSeed
  limits : s.limits = ScalarElastic.productionLimits
  exponent : s.config.reserveExponent = d
  levels : s.levels = g.levelCapacities
  offsets : s.offsets = ScalarElastic.offsetsFrom 0 s.levels
  quotas : s.quotas = g.batchPlan
  occupancy : s.occupancy = List.replicate s.levels.length 0
  slots : s.slots = List.replicate s.levels.sum none
  len : s.len = 0

theorem unused_of_new {n : Nat} {r : ReserveFraction} (hn : 2 ≤ n) (hg : ElasticGeometry.forSlots n r = .ok (some g))
    (hnew : ScalarElastic.new ⟨n, r.exponent⟩ elasticProbeSeed ScalarElastic.productionLimits = some s) :
    Unused g r.exponent s := by
  obtain ⟨-, rfl⟩ := ElasticGeometry.forSlots_ok hn hg
  rw [ScalarElastic.new] at hnew
  dsimp only at hnew
  split at hnew
  case isFalse => cases hnew
  rename_i hsum
  cases hnew
  exact ⟨rfl, rfl, rfl, rfl, rfl, rfl, rfl, congrArg (List.replicate · none) hsum.symm, rfl⟩

/-- What the table and the oracle agree on after any number of insertions. -/
structure Follows (u : User W K V) (hash : K → UInt64) (g : ElasticGeometry) (d : Nat) (s : ScalarElastic)
    (t : ElasticTable K V) : Prop where
  staged : Staged g d t
  mirrors : Mirrors hash s t
  quotas : s.quotas = g.batchPlan
  sound : t.Sound u True
  stored : ∀ global identity, s.slots[global]? = some (some identity) → ∃ loc e, t.Holds loc e ∧
    t.globalSlot loc = global ∧ hash e.1 = identity
  apart : ∀ loc loc' e e', t.Holds loc e → t.Holds loc' e' → hash e.1 = hash e'.1 → loc = loc'

namespace Follows

variable {eqv : K → K → Bool} {w : World W K V}

theorem start (hb : t.Blank g) (hs : Staged g d t) (hnew : Unused g d s) : Follows u hash g d s t := by
  have hnone : ∀ loc e, ¬t.Holds loc e := by
    intro loc e he
    have hmem := mem_entries.mpr ⟨loc, he⟩
    rw [hb.entries] at hmem
    cases hmem
  have hlevels := hnew.levels.trans hs.capacities.symm
  refine ⟨hs, ?_, hnew.quotas, hb.sound, ?_, ?_⟩
  · exact {
      seed := hnew.seed
      limits := hnew.limits
      exponent := hnew.exponent.trans hs.exponent.symm
      levels := hlevels
      offsets := hnew.offsets
      len := hnew.len.trans hb.len.symm
      occupancy := by
        rw [hnew.occupancy, hnew.levels, ElasticTable.loads, hb.levels, List.map_map]
        exact List.map_const.symm
      slots := by rw [hnew.slots, List.length_replicate]
      free := by
        intro loc hlt
        have hfree : isFree ((t.region loc.1).ctrl loc.2) := by
          rw [hb.region]
          exact (by decide : isFree ctrlEmpty = true)
        have hglobal := globalSlot_lt hlt
        rw [← hlevels] at hglobal
        rw [hnew.slots, List.getElem?_replicate, if_pos hglobal]
        exact iff_of_true rfl hfree
      held := fun loc e he => absurd he (hnone loc e) }
  · intro global identity hslot
    rw [hnew.slots] at hslot
    have hreplicate := (List.mem_replicate.mp (List.mem_of_getElem? hslot)).2
    cases hreplicate
  · intro loc loc' e e' he
    exact absurd he (hnone loc e)

theorem step (hcalm : u.Calm) (hl : u.Lawful hash eqv) (h : Follows u hash g d s t)
    {placement : ScalarElasticInsertion} (hinsert : s.insert (hash k) = some (placement, s')) :
    wp (ElasticTable.insert group u k v (hash k))
      (fun r p => r = none ∧ Mirrors.Chose s t (hash k) placement s' ∧
        p.1.Holds (placement.location.level, placement.location.slotInLevel) (k, v) ∧
        s'.Meets (hash k) placement.phi ∧ Follows u hash g d s' p.1)
      (fun _ _ => False) (t, w) := by
  have hchose := h.mirrors.chose h.staged h.quotas hinsert
  refine wp_mono (wp_insert_targeted h.staged.wf hchose.room hchose.targeted) ?_ (fun _ _ hloud => hloud hcalm)
  rintro (_ | old) ⟨t', w'⟩ hinserted
  · obtain ⟨-, t₁, haimed, hplaced⟩ := hinserted
    obtain rfl : t' = t₁.place (placement.location.level, placement.location.slotInLevel) k v (hash k) := hplaced
    have hvacant := haimed.target.vacant
    have hmirrors := (h.mirrors.prepared haimed.prepared).place (v := v) haimed.target (rfl : placement.location.level = _)
      (by rw [haimed.prepared.globalSlot]; exact hchose.global)
    rw [← hchose.after] at hmirrors
    have hself := (holds_place (k := k) (v := v) (x := hash k) hvacant).mpr (.inl ⟨rfl, rfl⟩)
    have hnew : ∀ loc e, t.Holds loc e → hash e.1 ≠ hash k := by
      intro loc e he heq
      apply hchose.fresh
      rw [← heq]
      exact List.mem_of_getElem? (h.mirrors.held loc e he)
    have hmeets : s'.Meets (hash k) placement.phi := by
      obtain ⟨j, hj, hprobe, hposition⟩ := hchose.probed
      have hwf := wf_place (k := k) (v := v) haimed.prepared.wf haimed.target (by
        rw [haimed.prepared.len, haimed.prepared.maxInsertions]
        exact hchose.room)
      have hcapacities : (t₁.place (placement.location.level, placement.location.slotInLevel) k v (hash k)).capacities =
          t₁.capacities := samePlan_place.capacities
      rw [← probeSlot_congr (hcapacities.trans haimed.prepared.toExtends.capacities)] at hprobe
      exact ⟨_, hmirrors.slotAt_phi hwf hself.level_lt hj hprobe hposition hchose.le, hmirrors.held _ _ hself⟩
    refine ⟨rfl, hchose, hself, hmeets, ?_⟩
    exact {
      staged := h.staged.place hchose.room hchose.targeted haimed
      mirrors := hmirrors
      quotas := by rw [hchose.after]; exact h.quotas
      sound := sound_place haimed.prepared.wf haimed.target ((hl.hashes _ _).mpr rfl) (haimed.prepared.sound h.sound)
      stored := by
        intro global identity hslot
        rw [hchose.after, Mirrors.placed] at hslot
        by_cases hglobal : placement.location.globalSlot = global
        · rw [hglobal] at hslot
          have hin : global < (s.slots.set global (some (hash k))).length := (List.getElem?_eq_some_iff.mp hslot).1
          rw [List.length_set] at hin
          rw [List.getElem?_set_self hin] at hslot
          refine ⟨_, _, hself, ?_, Option.some.inj (Option.some.inj hslot)⟩
          rw [globalSlot_place, haimed.prepared.globalSlot, ← hglobal, hchose.global]
        · rw [List.getElem?_set_ne hglobal] at hslot
          obtain ⟨loc, e, he, hloc, hidentity⟩ := h.stored global identity hslot
          have hne : loc ≠ (placement.location.level, placement.location.slotInLevel) := by
            rintro rfl
            exact hglobal (hchose.global.trans hloc)
          refine ⟨loc, e, (holds_place hvacant).mpr (.inr ⟨hne, haimed.prepared.holds.mpr he⟩), ?_, hidentity⟩
          rw [globalSlot_place, haimed.prepared.globalSlot, hloc]
      apart := by
        intro loc loc' e e' he he' heq
        rcases (holds_place hvacant).mp he with ⟨rfl, rfl⟩ | ⟨-, he⟩
        · rcases (holds_place hvacant).mp he' with ⟨rfl, rfl⟩ | ⟨-, he'⟩
          · rfl
          · exact absurd heq.symm (hnew loc' e' (haimed.prepared.holds.mp he'))
        · rcases (holds_place hvacant).mp he' with ⟨rfl, rfl⟩ | ⟨-, he'⟩
          · exact absurd heq (hnew loc e (haimed.prepared.holds.mp he))
          · exact h.apart loc loc' e e' (haimed.prepared.holds.mp he) (haimed.prepared.holds.mp he') heq }
  · obtain ⟨loc, e, he, hans⟩ := hinserted
    exfalso
    apply hchose.fresh
    rw [hl.congr k e.1 (hl.answers _ _ _ hans).symm]
    exact List.mem_of_getElem? (h.mirrors.held loc e he)

theorem finds (hcalm : u.Calm) (hl : u.Lawful hash eqv) (h : Follows u hash g d s t) (he : t.Holds loc e) :
    wp (find u e.1 (hash e.1)) (fun r p => r = some loc ∧ p.1 = t) (fun _ _ => False) (t, w) := by
  have hstable : u.EqStable fun _ => True := fun _ _ _ _ => trivial
  have hfind := (wp_find h.staged.wf hstable ⟨rfl, rfl, trivial⟩ : wp (find u e.1 (hash e.1)) _ _ (t, w))
  refine wp_mono hfind ?_ (fun _ _ hpanic => hpanic.1.2 hcalm)
  rintro (_ | loc') p ⟨hlooking, hreports⟩
  · obtain ⟨x, hx, hplaced⟩ := h.sound (fun _ => hl.deterministic) loc e he
    obtain rfl := (hl.hashes _ _).mp hx
    have hanswer := hl.answers _ _ _ (hreports loc e he hplaced)
    rw [hl.equality.refl] at hanswer
    cases hanswer
  · obtain ⟨e', he', hans⟩ := hreports
    have hsame := hl.congr e.1 e'.1 (hl.answers _ _ _ hans).symm
    exact ⟨congrArg some (h.apart loc loc' e e' he he' hsame).symm, hlooking.table⟩

theorem queries (h : Follows u hash g d s t) {position : Nat} (hpos : 0 < position) (hcap : position ≤ queryPositionCap)
    (hmeets : s.Meets (hash k) position) (he : t.Holds loc (k, v)) :
    (∃ q, s.query (hash k) = some q ∧ q.globalSlot = t.globalSlot loc ∧ q.foundPosition ≤ position) ∨
      ∃ p < position, s.slotAt (hash k) p = none := by
  have hlimit : position ≤ s.limits.hitQueryPositionCap := by
    rw [h.mirrors.limits]
    exact hcap
  rcases ScalarElastic.query_of_meets hpos hlimit hmeets with ⟨q, hq, hle, hfound⟩ | ⟨p, hp, hsticks⟩
  · obtain ⟨loc', e', he', hglobal, hsame⟩ := h.stored _ _ hfound
    obtain rfl := h.apart loc' loc e' (k, v) he' he hsame
    exact .inl ⟨q, hq, hglobal.symm, hle⟩
  · refine .inr ⟨p, hp, ?_⟩
    cases hslot : s.slotAt (hash k) p with
    | none => rfl
    | some global =>
      have hlt := h.mirrors.slotAt_lt h.staged.wf hslot
      have hge := List.getElem?_eq_none_iff.mp (hsticks global hslot)
      omega

end Follows

end Opthash.Elastic.ElasticTable
