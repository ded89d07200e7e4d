import Opthash.Exact.FunnelReference
import Opthash.Funnel.Budget
import Opthash.Funnel.Insertion
import Opthash.Shell.Spec

namespace Opthash.Reference.ScalarFunnel

open Probe Probing Funnel

variable {s s' : ScalarFunnel} {identity : UInt64} {α β : Type}

section Answers

variable {a : ScalarAnswer α} {f : α → ScalarAnswer β}

theorem answer_ok {x : α} (h : a.run = some (.ok x)) : (a >>= f).run = (f x).run := by
  simp [ExceptT.run_bind, h]

theorem answer_error {e : RangeReductionError} (h : a.run = some (.error e)) : (a >>= f).run = some (.error e) := by
  simp [ExceptT.run_bind, h]

theorem answer_lift {o : Option α} {x : α} (h : o = some x) : ((o : ScalarAnswer α) >>= f).run = (f x).run := by
  subst h
  rfl

theorem answer_cases {r : Except RangeReductionError β} (h : (a >>= f).run = some r) :
    (∃ x, a.run = some (.ok x) ∧ (f x).run = some r) ∨ ∃ e, a.run = some (.error e) ∧ r = .error e := by
  rw [ExceptT.run_bind] at h
  obtain ⟨r', hr', h⟩ := Option.bind_eq_some_iff.mp h
  cases r' with
  | ok x => exact .inl ⟨x, hr', h⟩
  | error e => exact .inr ⟨e, hr', (Option.some.inj h).symm⟩

end Answers

def outcome : Except RangeReductionError (ScalarFunnelSearch × Nat) → Outcome Nat
  | .ok (.hit location, _) => .hit location.globalSlot
  | .ok (.vacant location, _) => .vacant location.globalSlot
  | .ok (.full, _) => .exhausted
  | .error _ => .failed

def firstDecided (s : ScalarFunnel) (identity : UInt64) : List (Option Nat) → Outcome Nat
  | [] => .exhausted
  | none :: _ => .failed
  | some slot :: walk =>
    match s.slots[slot]? with
    | some (some stored) => if stored = identity then .hit slot else firstDecided s identity walk
    | _ => .vacant slot

section Walks

variable {slot : Nat} {walk : List (Option Nat)}

theorem firstDecided_vacant (h : s.slots[slot]? = some none) :
    s.firstDecided identity (some slot :: walk) = .vacant slot := by
  rw [firstDecided, h]

theorem firstDecided_hit (h : s.slots[slot]? = some (some identity)) :
    s.firstDecided identity (some slot :: walk) = .hit slot := by
  rw [firstDecided, h]
  exact if_pos rfl

theorem firstDecided_other {stored : UInt64} (h : s.slots[slot]? = some (some stored)) (hne : stored ≠ identity) :
    s.firstDecided identity (some slot :: walk) = s.firstDecided identity walk := by
  rw [firstDecided, h]
  exact if_neg hne

end Walks

def part (locations : List ScalarFunnelLocation) : List (Option Nat) :=
  locations.map fun location => some location.globalSlot

theorem inspectAll_eq {locations : List ScalarFunnelLocation} (identity : UInt64) (probes : Nat)
    (h : ∀ location ∈ locations, location.globalSlot < s.slots.length) :
    ∃ found probes', s.inspectAll identity locations probes = some (found, probes') ∧
      ∀ walk, s.firstDecided identity (part locations ++ walk) =
        found.elim (s.firstDecided identity walk) fun search => outcome (.ok (search, probes')) := by
  induction locations generalizing probes with
  | nil => exact ⟨none, probes, rfl, fun _ => rfl⟩
  | cons location locations ih =>
    obtain ⟨hfirst, hrest⟩ := List.forall_mem_cons.mp h
    obtain ⟨stored, hstored⟩ : ∃ stored, s.slots[location.globalSlot]? = some stored :=
      ⟨_, List.getElem?_eq_getElem hfirst⟩
    rw [inspectAll, hstored, Option.bind_eq_bind, Option.bind_some]
    cases stored with
    | none => exact ⟨_, _, rfl, fun walk => firstDecided_vacant hstored⟩
    | some stored =>
      dsimp only
      by_cases hsame : stored = identity
      · subst hsame
        rw [if_pos rfl]
        exact ⟨_, _, rfl, fun walk => firstDecided_hit hstored⟩
      · rw [if_neg hsame]
        obtain ⟨found, probes', hfound, hwalk⟩ := ih (probes + 1) hrest
        exact ⟨found, probes', hfound, fun walk => (firstDecided_other hstored hsame).trans (hwalk walk)⟩

/-- The oracle of the plan a shape was made from, over the words of a seed. -/
structure Lays (s : ScalarFunnel) (shape : FunnelShape) (seed : UInt64) : Prop where
  oracle : s.oracle = (FunnelPrf.mk seed).word
  cap : s.rangeWordCap = Probe.rangeWordCap
  beta : s.plan.beta = shape.beta
  levels : s.levels = shape.levels.map fun level => (level.offset, level.bucketRange.upper)
  bases : ∀ i level, shape.levels[i]? = some level → ordinaryCounterBase i = some level.ordinaryCounterBase
  ranges : ∀ level ∈ shape.levels, PreparedProbeRange.new level.bucketRange.upper = .ok level.bucketRange
  primaryOffset : s.primaryOffset = shape.primaryOffset
  primary : PreparedProbeRange.new s.plan.specialPrimaryLen = .ok shape.primaryRange
  loglogCeiling : s.plan.loglogCeiling = shape.loglogCeiling
  few : shape.loglogCeiling < funnelLogicalLimit
  fallbackOffset : s.fallbackOffset = shape.fallbackOffset
  fallbackBucketWidth : s.plan.fallbackBucketWidth = shape.fallbackBucketWidth
  fallback : PreparedProbeRange.new s.plan.fallbackBucketCount = .ok shape.fallbackBucketRange

section Search

variable {K V : Type} {t : FunnelTable K V} (h : s.Lays t.shape t.probeSeed)
include h

theorem Lays.sample_eq (identity : UInt64) {domain : ProbeDomain} {base : UInt64} {range : PreparedProbeRange}
    {logical upper : Nat}
    (hbase : tryPackFunnelCounter domain 0 0 = some base) (hrange : PreparedProbeRange.new upper = .ok range)
    (hlogical : logical < funnelLogicalLimit) :
    ∃ r, (s.sample identity domain logical upper).run = some r ∧
      r.toOption = Funnel.sample ((prepareFunnel t.probeSeed identity).prepareCounterBase base) logical range := by
  have hpos : 0 < upper := by
    by_contra hzero
    rw [PreparedProbeRange.new, if_pos (by omega)] at hrange
    cases hrange
  have hwords : ∀ r < Probe.rangeWordCap, s.oracle identity domain logical r =
      some (((prepareFunnel t.probeSeed identity).prepareCounterBase base).wordFromIndices logical r) := by
    intro r hr
    rw [h.oracle]
    exact funnelPrf_word hbase hlogical (Nat.lt_trans hr (by decide))
  have hindex : unbiasedProbeIndex s.oracle identity domain logical upper s.rangeWordCap = _ :=
    (congrArg _ h.cap).trans (unbiasedProbeIndex_eq hwords)
  rw [← funnelReducer_eq hrange hpos (by decide)] at hindex
  refine ⟨(unbiasedPreparedFunnelProbeIndexInRange ((prepareFunnel t.probeSeed identity).prepareCounterBase base)
    logical range Probe.rangeWordCap).map ProbeIndex.index, ?_, ?_⟩
  · rw [sample, ExceptT.run_map, ExceptT.run_mk, hindex]
    rfl
  · rw [Funnel.sample]
    cases unbiasedPreparedFunnelProbeIndexInRange ((prepareFunnel t.probeSeed identity).prepareCounterBase base)
      logical range Probe.rangeWordCap <;> rfl

theorem Lays.part_fallback (bucketA bucketB : Nat) :
    part (s.fallbackLocations bucketA bucketB) = (t.fallbackSlots bucketA bucketB).map some := by
  simp only [part, fallbackLocations, FunnelTable.fallbackSlots, FunnelTable.fallbackSlot, List.map_flatMap,
    List.map_cons, List.map_nil, h.fallbackBucketWidth, h.fallbackOffset]
  rfl

theorem Lays.part_ordinary {level : LevelShape} (i bucket : Nat) :
    part (s.ordinaryLocations i level.offset bucket) =
      (List.range' (t.bucketStart level bucket) t.shape.beta).map some := by
  simp only [part, ordinaryLocations, FunnelTable.bucketStart, List.range'_eq_map_range, List.map_map, h.beta]
  rfl

variable {probes : Nat}

theorem Lays.searchFallback_eq (hin : ∀ slot, some slot ∈ t.fallbackPart (prepareFunnel t.probeSeed identity) →
    slot < s.slots.length) : (s.searchFallback identity probes).run.map outcome =
      some (s.firstDecided identity (t.fallbackPart (prepareFunnel t.probeSeed identity))) := by
  obtain ⟨-, hbaseA, hbaseB⟩ := specialBases_pack
  obtain ⟨a, ha, hsampleA⟩ := h.sample_eq identity hbaseA h.fallback (by decide : 0 < funnelLogicalLimit)
  obtain ⟨b, hb, hsampleB⟩ := h.sample_eq identity hbaseB h.fallback (by decide : 0 < funnelLogicalLimit)
  rw [FunnelTable.fallbackPart, ← hsampleA, ← hsampleB] at hin ⊢
  cases a with
  | error e =>
    rw [searchFallback, answer_error ha]
    rfl
  | ok bucketA =>
    cases b with
    | error e =>
      rw [searchFallback, answer_ok ha, answer_error hb]
      rfl
    | ok bucketB =>
      have hrange : ∀ location ∈ s.fallbackLocations bucketA bucketB, location.globalSlot < s.slots.length := by
        intro location hlocation
        apply hin
        change some location.globalSlot ∈ (t.fallbackSlots bucketA bucketB).map some
        rw [← h.part_fallback]
        exact List.mem_map.mpr ⟨location, hlocation, rfl⟩
      obtain ⟨found, probes', hfound, hwalk⟩ := inspectAll_eq identity probes hrange
      have hnil := hwalk []
      rw [List.append_nil, h.part_fallback] at hnil
      rw [searchFallback, answer_ok ha, answer_ok hb, answer_lift hfound]
      refine congrArg some (Eq.trans ?_ hnil.symm)
      cases found <;> rfl

theorem Lays.searchPrimary_eq {logicals : List Nat} (hfew : ∀ logical ∈ logicals, logical < funnelLogicalLimit)
    (hin : ∀ slot, some slot ∈ t.primaryPart (prepareFunnel t.probeSeed identity) logicals ++
      t.fallbackPart (prepareFunnel t.probeSeed identity) → slot < s.slots.length) :
    (s.searchPrimary identity logicals probes).run.map outcome =
      some (s.firstDecided identity (t.primaryPart (prepareFunnel t.probeSeed identity) logicals ++
        t.fallbackPart (prepareFunnel t.probeSeed identity))) := by
  induction logicals generalizing probes with
  | nil => exact h.searchFallback_eq hin
  | cons logical logicals ih =>
    obtain ⟨hlogical, hfew⟩ := List.forall_mem_cons.mp hfew
    obtain ⟨r, hr, hsample⟩ := h.sample_eq identity specialBases_pack.1 h.primary hlogical
    rw [FunnelTable.primaryPart, List.map_cons, ← hsample, List.cons_append] at hin ⊢
    have hrest := fun slot hslot => hin slot (List.mem_cons_of_mem _ hslot)
    cases r with
    | error e =>
      rw [searchPrimary, answer_error hr]
      rfl
    | ok slot =>
      have hrange : ∀ location ∈ [ScalarFunnelLocation.specialPrimary slot (s.primaryOffset + slot)],
          location.globalSlot < s.slots.length := by
        intro location hlocation
        rw [List.mem_singleton.mp hlocation]
        apply hin
        rw [ScalarFunnelLocation.globalSlot, h.primaryOffset]
        exact List.mem_cons_self
      obtain ⟨found, probes', hfound, hwalk⟩ := inspectAll_eq identity probes hrange
      have hcons : ∀ walk, some (t.shape.primaryOffset + slot) :: walk =
          part [.specialPrimary slot (s.primaryOffset + slot)] ++ walk := by
        rw [← h.primaryOffset]
        exact fun walk => rfl
      rw [searchPrimary, answer_ok hr, answer_lift hfound]
      change _ = some (s.firstDecided identity (some (t.shape.primaryOffset + slot) :: _))
      rw [hcons, hwalk]
      cases found with
      | none => exact ih hfew hrest
      | some search => rfl

theorem Lays.searchLevels_eq {levels : List LevelShape} {i : Nat}
    (hbases : ∀ j level, levels[j]? = some level → ordinaryCounterBase (i + j) = some level.ordinaryCounterBase)
    (hranges : ∀ level ∈ levels, PreparedProbeRange.new level.bucketRange.upper = .ok level.bucketRange)
    (hin : ∀ slot, some slot ∈ levels.flatMap (t.ordinaryPart (prepareFunnel t.probeSeed identity)) ++
      t.specialPart (prepareFunnel t.probeSeed identity) → slot < s.slots.length) :
    (s.searchLevels identity ((levels.map fun level => (level.offset, level.bucketRange.upper)).zipIdx i)
        probes).run.map outcome =
      some (s.firstDecided identity (levels.flatMap (t.ordinaryPart (prepareFunnel t.probeSeed identity)) ++
        t.specialPart (prepareFunnel t.probeSeed identity))) := by
  induction levels generalizing i probes with
  | nil =>
    rw [List.map_nil, List.zipIdx_nil, searchLevels, h.loglogCeiling]
    apply h.searchPrimary_eq ?_ hin
    intro logical hlogical
    exact Nat.lt_trans (List.mem_range.mp hlogical) h.few
  | cons level levels ih =>
    have hbase : tryPackFunnelCounter (.funnelOrdinary i) 0 0 = some level.ordinaryCounterBase := hbases 0 level rfl
    obtain ⟨hrange, hranges⟩ := List.forall_mem_cons.mp hranges
    obtain ⟨r, hr, hsample⟩ := h.sample_eq identity hbase hrange (by decide : 0 < funnelLogicalLimit)
    rw [List.flatMap_cons, List.append_assoc] at hin ⊢
    have hrest := fun slot hslot => hin slot (List.mem_append_right _ hslot)
    have hbases' : ∀ j level, levels[j]? = some level →
        ordinaryCounterBase (i + 1 + j) = some level.ordinaryCounterBase := by
      intro j level hlevel
      rw [Nat.add_assoc, Nat.add_comm 1 j]
      exact hbases (j + 1) level hlevel
    rw [List.map_cons, List.zipIdx_cons, searchLevels]
    cases r with
    | error e =>
      rw [answer_error hr, FunnelTable.ordinaryPart, ← hsample]
      rfl
    | ok bucket =>
      have hordinary : t.ordinaryPart (prepareFunnel t.probeSeed identity) level =
          part (s.ordinaryLocations i level.offset bucket) := by
        rw [FunnelTable.ordinaryPart, ← hsample, h.part_ordinary]
        rfl
      rw [hordinary] at hin ⊢
      have hinspected : ∀ location ∈ s.ordinaryLocations i level.offset bucket,
          location.globalSlot < s.slots.length := by
        intro location hlocation
        exact hin _ (List.mem_append_left _ (List.mem_map.mpr ⟨location, hlocation, rfl⟩))
      obtain ⟨found, probes', hfound, hwalk⟩ := inspectAll_eq identity probes hinspected
      rw [answer_ok hr, answer_lift hfound, hwalk]
      cases found with
      | none => exact ih hbases' hranges hrest
      | some search => rfl

theorem Lays.search_eq (hn : t.shape.Laid) (hslots : s.slots.length = t.shape.n) :
    (s.search identity).run.map outcome =
      some (s.firstDecided identity (t.walk (prepareFunnel t.probeSeed identity))) := by
  rw [search, h.levels]
  apply h.searchLevels_eq ?_ h.ranges
  · intro slot hslot
    rw [hslots]
    exact FunnelTable.walk_lt hn hslot
  · intro j level hlevel
    rw [Nat.zero_add]
    exact h.bases j level hlevel

omit h in
theorem ordinaryAt_some {levels : List LevelShape} {beta offset stop slot : Nat}
    (hlevels : Consecutive beta offset levels stop) (hbeta : s.plan.beta = beta) (hslot : slot < stop) (index : Nat)
    (hfrom : offset ≤ slot) :
    ∃ location, s.ordinaryAt slot ((levels.map fun level => (level.offset, level.bucketRange.upper)).zipIdx index) =
      some location ∧ location.globalSlot = slot := by
  induction levels generalizing offset index with
  | nil =>
    obtain rfl : offset = stop := hlevels
    exact absurd hslot (Nat.not_lt_of_le hfrom)
  | cons level levels ih =>
    obtain ⟨rfl, -, hrest⟩ := hlevels
    rw [List.map_cons, List.zipIdx_cons, ordinaryAt, hbeta]
    dsimp only
    split
    · exact ⟨_, rfl, rfl⟩
    · exact ih hrest (index + 1) (by omega)

theorem Lays.locationAtGlobalSlot_some (hn : t.shape.Laid) (hslots : s.slots.length = t.shape.n) {slot : Nat}
    (hslot : slot < t.shape.n) : ∃ location, s.locationAtGlobalSlot slot = some location ∧ location.globalSlot = slot := by
  rw [locationAtGlobalSlot, if_neg (by omega)]
  split
  · rename_i hordinary
    rw [h.primaryOffset] at hordinary
    rw [h.levels]
    exact ordinaryAt_some hn.levels h.beta hordinary 0 (Nat.zero_le _)
  · split
    · exact ⟨_, rfl, rfl⟩
    · exact ⟨_, rfl, rfl⟩

end Search

section Locations

theorem mapM_some {f : α → Option β} {view : β → α} {l : List α} (h : ∀ a ∈ l, ∃ b, f a = some b ∧ view b = a) :
    ∃ bs, l.mapM f = some bs ∧ bs.map view = l := by
  induction l with
  | nil => exact ⟨[], rfl, rfl⟩
  | cons a l ih =>
    obtain ⟨⟨b, hb, hview⟩, hrest⟩ := List.forall_mem_cons.mp h
    obtain ⟨bs, hbs, hviews⟩ := ih hrest
    refine ⟨b :: bs, ?_, ?_⟩
    · rw [List.mapM_cons, hb, hbs]
      rfl
    · rw [List.map_cons, hview, hviews]

theorem locations_some (hat : ∀ slot < s.slots.length, ∃ location, s.locationAtGlobalSlot slot = some location ∧
    location.globalSlot = slot) :
    ∃ ls, s.locations = some ls ∧ ∀ slot x, (∃ location, (location, x) ∈ ls ∧ location.globalSlot = slot) ↔
      s.slots[slot]? = some (some x) := by
  have hstored : ∀ slot x, (slot, x) ∈ (s.slots.zipIdx.filterMap fun slot => slot.1.map fun identity => (slot.2, identity)) ↔
      s.slots[slot]? = some (some x) := by
    intro slot x
    rw [List.mem_filterMap]
    constructor
    · rintro ⟨⟨stored, i⟩, hmem, hsome⟩
      obtain ⟨y, rfl, hy⟩ := Option.map_eq_some_iff.mp hsome
      cases hy
      exact List.mk_mem_zipIdx_iff_getElem?.mp hmem
    · intro hx
      exact ⟨(some x, slot), List.mk_mem_zipIdx_iff_getElem?.mpr hx, rfl⟩
  have hlocated : ∀ slot ∈ (s.slots.zipIdx.filterMap fun slot => slot.1.map fun identity => (slot.2, identity)),
      ∃ l : ScalarFunnelLocation × UInt64,
        (s.locationAtGlobalSlot slot.1).map (fun location => (location, slot.2)) = some l ∧
          (l.1.globalSlot, l.2) = slot := by
    rintro ⟨slot, x⟩ hmem
    obtain ⟨hlt, -⟩ := List.getElem?_eq_some_iff.mp ((hstored slot x).mp hmem)
    obtain ⟨location, hlocation, rfl⟩ := hat slot hlt
    refine ⟨(location, x), ?_, rfl⟩
    rw [hlocation]
    rfl
  obtain ⟨ls, hls, hview⟩ := mapM_some hlocated
  refine ⟨ls, hls, fun slot x => ?_⟩
  rw [← hstored, ← hview, List.mem_map]
  constructor
  · rintro ⟨location, hmem, rfl⟩
    exact ⟨(location, x), hmem, rfl⟩
  · rintro ⟨⟨location, x'⟩, hmem, hsame⟩
    cases hsame
    exact ⟨location, hmem, rfl⟩

end Locations

section New

open Opthash.Geometry

theorem rangeOrOverflow_ok {upper : Nat} {range : PreparedProbeRange} (h : rangeOrOverflow upper = .ok range) :
    range.upper = upper ∧ PreparedProbeRange.new upper = .ok range := by
  refine ⟨(rangeOrOverflow_spec h).1, ?_⟩
  unfold rangeOrOverflow at h
  cases hnew : PreparedProbeRange.new upper with
  | error e =>
    rw [hnew] at h
    cases h
  | ok range' =>
    rw [hnew] at h
    cases h
    rfl

theorem levelsFrom_eq {beta : Nat} {counts : List Nat} {index offset stop : Nat} {levels : List LevelShape}
    (h : ordinaryLevels beta counts index offset = .ok (levels, stop)) :
    levelsFrom beta offset counts = (levels.map fun level => (level.offset, level.bucketRange.upper), stop) ∧
      (∀ j level, levels[j]? = some level → ordinaryCounterBase (index + j) = some level.ordinaryCounterBase) ∧
      ∀ level ∈ levels, PreparedProbeRange.new level.bucketRange.upper = .ok level.bucketRange := by
  induction counts generalizing index offset levels with
  | nil =>
    cases h
    exact ⟨rfl, fun j level hlevel => (by cases hlevel), fun level hlevel => (by cases hlevel)⟩
  | cons count counts ih =>
    rw [ordinaryLevels] at h
    obtain ⟨range, hrange, h⟩ := bind_ok h
    obtain ⟨base, hbase, h⟩ := bind_ok h
    obtain ⟨slots, hslots, h⟩ := bind_ok h
    obtain ⟨next, hnext, h⟩ := bind_ok h
    obtain ⟨⟨rest, stop'⟩, hrest, h⟩ := bind_ok h
    cases h
    obtain ⟨hupper, hrange⟩ := rangeOrOverflow_ok hrange
    obtain ⟨rfl, -⟩ := checkedUsize_spec (orOverflow_spec hslots)
    obtain ⟨rfl, -⟩ := checkedUsize_spec (orOverflow_spec hnext)
    obtain ⟨hlevels, hbases, hranges⟩ := ih hrest
    refine ⟨?_, ?_, ?_⟩
    · rw [levelsFrom, hlevels, List.map_cons, hupper]
    · intro j level hlevel
      cases j with
      | zero =>
        cases hlevel
        exact orOverflow_spec hbase
      | succ j =>
        rw [Nat.add_comm j 1, ← Nat.add_assoc]
        exact hbases j level hlevel
    · rw [List.forall_mem_cons]
      refine ⟨?_, hranges⟩
      rw [hupper]
      exact hrange

theorem lays_new {n : Nat} {r : ReserveFraction} {shape : FunnelShape} {seed : UInt64} (hn : n ≠ 0)
    (hshape : FunnelShape.fromSlots n r = .ok shape)
    (hnew : new ⟨n, r.exponent⟩ (FunnelPrf.mk seed).word Probe.rangeWordCap = some s) :
    s.Lays shape seed ∧ s.slots = List.replicate shape.n none ∧ s.len = 0 ∧
      s.plan.config.maxInsertions = shape.maxInsertions := by
  obtain ⟨hsmall, hsize, hd, -, plan, hplan, hfrom⟩ := FunnelShape.fromSlots_plan hshape hn
  have hconfig : plan.config = ⟨n, r.exponent⟩ := by
    have halpha : 4 * r.exponent + 10 ≤ usizeMax := by
      have := r.bounded
      unfold usizeMax
      omega
    exact (funnelPlan_spec hsmall hsize hd halpha hplan).1.1
  obtain ⟨-, hshapen, hmax⟩ := FunnelShape.fromPlan_laid hfrom
  rw [FunnelShape.fromPlan] at hfrom
  obtain ⟨⟨levels, primaryOffset⟩, hlevels, hfrom⟩ := bind_ok hfrom
  obtain ⟨primaryRange, hprimary, hfrom⟩ := bind_ok hfrom
  obtain ⟨fallbackOffset, hfallback, hfrom⟩ := bind_ok hfrom
  obtain ⟨stop, -, hfrom⟩ := bind_ok hfrom
  dsimp only at hlevels hfallback hfrom
  obtain ⟨rfl, -⟩ := checkedUsize_spec (orOverflow_spec hfallback)
  obtain ⟨-, hprimary⟩ := rangeOrOverflow_ok hprimary
  obtain ⟨hfrom', hbases, hranges⟩ := levelsFrom_eq hlevels
  split at hfrom
  · cases hfrom
  split at hfrom
  · cases hfrom
  rename_i hloglog
  obtain ⟨fallbackRange, hrange, hfrom⟩ := bind_ok hfrom
  obtain ⟨-, hrange⟩ := rangeOrOverflow_ok hrange
  cases hfrom
  rw [new, hplan] at hnew
  dsimp only [Except.toOption, Option.bind_eq_bind, Option.bind_some] at hnew
  rw [hfrom'] at hnew
  cases hnew
  refine ⟨?_, by rw [← hshapen], rfl, ?_⟩
  · exact {
      oracle := rfl
      cap := rfl
      beta := rfl
      levels := rfl
      bases := fun i level hlevel => by simpa using hbases i level hlevel
      ranges := hranges
      primaryOffset := rfl
      primary := hprimary
      loglogCeiling := rfl
      few := Nat.lt_succ_of_le (Nat.le_of_not_gt hloglog)
      fallbackOffset := rfl
      fallbackBucketWidth := rfl
      fallback := hrange }
  · rw [hconfig]

end New

def Vacant (s : ScalarFunnel) (slot : Nat) : Prop := ∀ stored, s.slots[slot]? ≠ some (some stored)

/-- A search that stops at vacant slots does not come to the identity. -/
def Absent (s : ScalarFunnel) (identity : UInt64) (walk : List (Option Nat)) : Prop :=
  ∀ slot, Reached s.Vacant walk slot → s.slots[slot]? ≠ some (some identity)

theorem firstDecided_spec {free : Nat → Bool} (hfree : ∀ slot, free slot = true ↔ s.Vacant slot)
    (identity : UInt64) (walk : List (Option Nat)) :
    (∃ slot, s.firstDecided identity walk = .hit slot ∧ s.slots[slot]? = some (some identity)) ∨
    (∃ slot, s.firstDecided identity walk = .vacant slot ∧ firstFree free walk = some slot ∧
      s.Absent identity walk) ∨
    (s.firstDecided identity walk = .failed ∨ s.firstDecided identity walk = .exhausted) ∧ s.Absent identity walk := by
  induction walk with
  | nil => exact .inr (.inr ⟨.inr rfl, fun slot h => (by cases h)⟩)
  | cons o walk ih =>
    cases o with
    | none => exact .inr (.inr ⟨.inl rfl, fun slot h => (by cases h)⟩)
    | some slot =>
      by_cases hvacant : s.Vacant slot
      · refine .inr (.inl ⟨slot, ?_, ?_, ?_⟩)
        · rw [firstDecided]
          split
          · exact absurd ‹_› (hvacant _)
          · rfl
        · rw [firstFree, if_pos ((hfree slot).mpr hvacant)]
        · intro slot' hreached
          cases hreached with
          | here => exact hvacant identity
          | there hm _ => exact absurd hvacant hm
      · obtain ⟨stored, hstored⟩ := not_forall_not.mp hvacant
        by_cases hsame : stored = identity
        · subst hsame
          exact .inl ⟨slot, firstDecided_hit hstored, hstored⟩
        · have hnext : s.firstDecided identity (some slot :: walk) = _ := firstDecided_other hstored hsame
          have hwalk : firstFree free (some slot :: walk) = firstFree free walk :=
            if_neg fun h => hvacant ((hfree slot).mp h)
          have habsent : s.Absent identity walk → s.Absent identity (some slot :: walk) := by
            intro h slot' hreached
            cases hreached with
            | here =>
              rw [hstored]
              exact fun heq => hsame (Option.some.inj (Option.some.inj heq))
            | there _ hreached => exact h slot' hreached
          rw [hnext, hwalk]
          rcases ih with hhit | ⟨slot', hslot', hfirst, hnone⟩ | ⟨hend, hnone⟩
          · exact .inl hhit
          · exact .inr (.inl ⟨slot', hslot', hfirst, habsent hnone⟩)
          · exact .inr (.inr ⟨hend, habsent hnone⟩)

theorem insert_cases {result : ScalarFunnelInsert} {probes : Nat}
    (h : (s.insert identity).run = some (.ok ((result, probes), s'))) :
    ∃ found, (s.search identity).run = some (.ok (found, probes)) ∧
      ((∃ location, found = .hit location ∧ result = .duplicate location ∧ s' = s) ∨
        (∃ location, found = .vacant location ∧ s.len < s.plan.config.maxInsertions ∧ result = .inserted location ∧
          s' = { s with slots := s.slots.set location.globalSlot (some identity), len := s.len + 1 }) ∨
        (result = .targetExhausted ∨ result = .fallbackFull) ∧ s' = s) := by
  rcases answer_cases h with ⟨⟨found, probes'⟩, hsearch, h⟩ | ⟨e, -, herror⟩
  swap
  · cases herror
  cases found with
  | hit location =>
    cases h
    exact ⟨_, hsearch, .inl ⟨location, rfl, rfl, rfl⟩⟩
  | vacant location =>
    dsimp only at h
    by_cases hroom : s.len ≥ s.plan.config.maxInsertions
    · rw [if_pos hroom] at h
      cases h
      exact ⟨_, hsearch, .inr (.inr ⟨.inl rfl, rfl⟩)⟩
    · rw [if_neg hroom] at h
      cases h
      exact ⟨_, hsearch, .inr (.inl ⟨location, rfl, Nat.lt_of_not_ge hroom, rfl, rfl⟩)⟩
  | full =>
    dsimp only at h
    by_cases hroom : s.len ≥ s.plan.config.maxInsertions
    · rw [if_pos hroom] at h
      cases h
      exact ⟨_, hsearch, .inr (.inr ⟨.inl rfl, rfl⟩)⟩
    · rw [if_neg hroom] at h
      cases h
      exact ⟨_, hsearch, .inr (.inr ⟨.inr rfl, rfl⟩)⟩

end Opthash.Reference.ScalarFunnel

namespace Opthash.Funnel.FunnelTable

open Exec Probe Probing Reference

variable {W K V : Type} {group : GroupBackend} {u : User W K V} {t t' : FunnelTable K V} {k : K} {v : V} {x : UInt64}
  {s s' : ScalarFunnel} {hash : K → UInt64} {eqv : K → K → Bool} {slot : Nat} {e : K × V} {w : World W K V}

section Inserting

/-- With room and a free slot on its walk, an absent key goes to that slot and nothing else happens. -/
theorem placeAbsent_eq (hroom : t.len < t.shape.maxInsertions)
    (hvacancy : t.searchVacancy group (prepareFunnel t.probeSeed x) = some (t.vacancyAt slot)) :
    placeAbsent group u k v x (t, w) = (.ok slot, (t.place slot k v x false, w)) := by
  have hfull : ¬t.len ≥ t.shape.maxInsertions := by omega
  have hsearch : u.owned k v (do
      let _ ← prepareVacantInsert group u
      let s ← Exec.get
      pure (s.1.searchVacancy group (prepareFunnel s.1.probeSeed x), s.1.membershipSlot x) :
        Run (FunnelTable K V) W K V (Option Vacancy × MembershipSlot)) (t, w) =
      (.ok (some (t.vacancyAt slot), t.membershipSlot x), (t, w)) := by
    rw [User.owned, guarded, prepareVacantInsert, bind_apply, bind_apply]
    dsimp only [Exec.get]
    rw [if_neg hfull, ← hvacancy]
    rfl
  rw [placeAbsent, bind_apply]
  exact hsearch ▸ rfl

theorem wp_insert_found (hcalm : u.Calm) (hw : t.Wf) (hfound : ¬Refuted u t k x) :
    wp (insert group u k v x)
      (fun r p => ∃ slot e, t.storage.Holds slot e ∧ u.Answers k e.1 true ∧ r = some e.2 ∧
        p.1 = t.replaceValue slot e.1 v) (fun _ _ => False) (t, w) := by
  rw [insert, wp_bind]
  refine wp_owned_calm (wp_mono (wp_searchForInsert hw eqStable_true ⟨rfl, rfl, trivial⟩) ?_ fun _ _ h => h.1.2 hcalm)
  rintro (slot | exact) ⟨t', w'⟩ ⟨hlooked, hmatch⟩
  · obtain rfl : t' = t := hlooked.table
    obtain ⟨e, he, hans⟩ := hmatch
    simp only [replaceAt, wp_bind, wp_get, Region.getRef, he.2.2, expect, wp_pure, wp_modify, wp_onSnd]
    refine wp_mono (User.wp_dropBoth (κ := fun _ => 0) (User.wp_dropK k) (User.wp_dropV e.2) w') ?_ ?_
    · exact fun _ _ _ => ⟨slot, e, he, hans, rfl, rfl⟩
    · exact fun _ _ h => h.1.2 hcalm
  · exact absurd hmatch.1 hfound

end Inserting

/-- The oracle is where the table is: what it stores at a slot is the hash of the key the table holds there, and the
table has no tombstone. -/
structure Mirrors (hash : K → UInt64) (s : ScalarFunnel) (t : FunnelTable K V) : Prop where
  lays : s.Lays t.shape t.probeSeed
  limit : s.plan.config.maxInsertions = t.shape.maxInsertions
  len : s.len = t.len
  slots : s.slots.length = t.shape.n
  vacant : ∀ slot, s.Vacant slot ↔ t.storage.ctrl slot = ctrlEmpty
  clean : ∀ slot, t.storage.ctrl slot ≠ ctrlTombstone
  held : ∀ slot e, t.storage.Holds slot e → s.slots[slot]? = some (some (hash e.1))

namespace Mirrors

variable (h : Mirrors hash s t)
include h

theorem free (slot : Nat) : isFree (t.storage.ctrl slot) = true ↔ s.Vacant slot := by
  rw [h.vacant, isFree_iff]
  exact ⟨fun hfree => hfree.resolve_right (h.clean slot), .inl⟩

theorem stored (hw : t.Wf) (hslot : s.slots[slot]? = some (some x)) :
    ∃ e, t.storage.Holds slot e ∧ hash e.1 = x := by
  have hocc : t.storage.Occ slot := by
    have hfree : ¬isFree (t.storage.ctrl slot) = true := fun hfree => (h.free slot).mp hfree x hslot
    rwa [isFree_eq_not, Bool.not_eq_true', Bool.not_eq_false] at hfree
  obtain ⟨e, he⟩ := hw.holds hocc
  exact ⟨e, he, Option.some.inj (Option.some.inj ((h.held slot e he).symm.trans hslot))⟩

theorem refuted (hl : u.Lawful hash eqv) (hs : t.Sound u True) (hexceptional : t.exceptionalPlacement = false)
    (habsent : s.Absent (hash k) (t.walk (prepareFunnel t.probeSeed (hash k)))) {e : K × V}
    (he : t.storage.Holds slot e) : hash e.1 ≠ hash k := by
  intro hsame
  obtain ⟨x, hx, hplaced⟩ := hs (fun _ => hl.deterministic) slot e he
  obtain rfl := (hl.hashes _ _).mp hx
  have hreached : t.OnWalk (hash e.1) slot := hplaced.reachable.resolve_left (by simp [hexceptional])
  rw [OnWalk, hsame] at hreached
  apply habsent slot (hreached.mono fun slot hvacant => (h.vacant slot).mp hvacant)
  rw [h.held slot e he, hsame]

theorem place (hlt : slot < t.shape.n) :
    Mirrors hash { s with slots := s.slots.set slot (some (hash k)), len := s.len + 1 }
      (t.place slot k v (hash k) false) where
  lays := { h.lays with }
  limit := h.limit
  len := congrArg (· + 1) h.len
  slots := by rw [List.length_set, h.slots]; rfl
  vacant := by
    intro slot'
    rw [storage_place, Region.ctrl_writeWithControl]
    by_cases hsame : slot' = slot
    · subst hsame
      rw [if_pos rfl]
      refine iff_of_false (fun hv => hv (hash k) ?_) (controlFingerprint_ne_ctrlEmpty _)
      exact List.getElem?_set_self (h.slots ▸ hlt)
    · rw [if_neg hsame, ← h.vacant]
      unfold ScalarFunnel.Vacant
      dsimp only
      rw [List.getElem?_set_ne (Ne.symm hsame)]
  clean := by
    intro slot'
    rw [storage_place, Region.ctrl_writeWithControl]
    split
    · exact controlFingerprint_ne_ctrlTombstone _
    · exact h.clean slot'
  held := by
    intro slot' e he
    rcases holds_place.mp he with ⟨rfl, -, rfl⟩ | ⟨hne, he⟩
    · exact List.getElem?_set_self (h.slots ▸ hlt)
    · exact (List.getElem?_set_ne (Ne.symm hne)).trans (h.held slot' e he)

theorem replaceValue (he : t.storage.Holds slot e) : Mirrors hash s (t.replaceValue slot e.1 v) where
  lays := h.lays
  limit := h.limit
  len := h.len
  slots := h.slots
  vacant := h.vacant
  clean := h.clean
  held := by
    intro slot' e' he'
    rcases (holds_replaceValue he).mp he' with ⟨rfl, rfl⟩ | ⟨-, he'⟩
    · exact h.held slot' e he
    · exact h.held slot' e' he'

end Mirrors

/-- What the table and the oracle agree on after any number of insertions. -/
structure Follows (u : User W K V) (hash : K → UInt64) (s : ScalarFunnel) (t : FunnelTable K V) : Prop where
  wf : t.Wf
  counted : t.Counted
  sound : t.Sound u True
  exceptional : t.exceptionalPlacement = false
  used : t.shape.n ≠ 0
  mirrors : Mirrors hash s t
  apart : ∀ slot slot' e e', t.storage.Holds slot e → t.storage.Holds slot' e' → hash e.1 = hash e'.1 → slot = slot'

namespace Follows

variable (hcalm : u.Calm) (hl : u.Lawful hash eqv) (h : Follows u hash s t)

include h in
theorem searched (group : GroupBackend) (hl : u.Lawful hash eqv) {found : ScalarFunnelSearch} {probes : Nat}
    (hsearch : (s.search (hash k)).run = some (.ok (found, probes))) :
    (∀ location, found = .hit location →
      ∃ e, t.storage.Holds location.globalSlot e ∧ hash e.1 = hash k) ∧
    ((∀ location, found ≠ .hit location) → ∀ slot e, t.storage.Holds slot e → hash e.1 ≠ hash k) ∧
    ∀ location, found = .vacant location → location.globalSlot < t.shape.n ∧ s.Vacant location.globalSlot ∧
      t.OnWalk (hash k) location.globalSlot ∧
      t.searchVacancy group (prepareFunnel t.probeSeed (hash k)) = some (t.vacancyAt location.globalSlot) := by
  have hlaid := h.wf.laid h.used
  have houtcome : Option.map _ (s.search (hash k)).run = _ := h.mirrors.lays.search_eq hlaid h.mirrors.slots
  rw [hsearch, Option.map_some] at houtcome
  have houtcome := Option.some.inj houtcome
  rcases ScalarFunnel.firstDecided_spec h.mirrors.free (hash k)
      (t.walk (prepareFunnel t.probeSeed (hash k))) with ⟨slot, hhit, hslot⟩ | ⟨slot, hvacant, hfirst, habsent⟩ |
      ⟨hend, habsent⟩
  · rw [hhit] at houtcome
    cases found with
    | hit location =>
      cases houtcome
      refine ⟨?_, fun hne => absurd rfl (hne location), fun _ heq => (by cases heq)⟩
      rintro _ ⟨⟩
      exact h.mirrors.stored h.wf hslot
    | vacant location => cases houtcome
    | full => cases houtcome
  · rw [hvacant] at houtcome
    cases found with
    | hit location => cases houtcome
    | vacant location =>
      cases houtcome
      refine ⟨fun _ heq => (by cases heq), fun _ slot e he => h.mirrors.refuted hl h.sound h.exceptional habsent he, ?_⟩
      rintro _ ⟨⟩
      have hreached : t.OnWalk (hash k) location.globalSlot := reached_firstFree
        (fun slot hempty => by rw [hempty]; rfl) hfirst
      have hfree := firstFree_free hfirst
      refine ⟨walk_lt hlaid hreached.mem, (h.mirrors.free location.globalSlot).mp hfree, hreached, ?_⟩
      rw [searchVacancy_eq hlaid h.used, hfirst, Option.map_some]
    | full => cases houtcome
  · cases found with
    | hit location =>
      rcases hend with hend | hend
      · rw [hend] at houtcome
        cases houtcome
      · rw [hend] at houtcome
        cases houtcome
    | vacant location =>
      rcases hend with hend | hend
      · rw [hend] at houtcome
        cases houtcome
      · rw [hend] at houtcome
        cases houtcome
    | full =>
      exact ⟨fun _ heq => (by cases heq), fun _ slot e he => h.mirrors.refuted hl h.sound h.exceptional habsent he,
        fun _ heq => (by cases heq)⟩

include hl h in
theorem not_refuted (he : t.storage.Holds slot e) (hsame : hash e.1 = hash k) (hkey : eqv k e.1 = true) :
    ¬Refuted u t k (hash k) := by
  intro hrefuted
  obtain ⟨x, hx, hplaced⟩ := h.sound (fun _ => hl.deterministic) slot e he
  obtain rfl := (hl.hashes _ _).mp hx
  rw [hsame] at hplaced
  have hans := hl.answers _ _ _ (hrefuted slot e he hplaced)
  rw [hkey] at hans
  cases hans

include hcalm hl h

theorem inserted (group : GroupBackend) {location : ScalarFunnelLocation} {probes : Nat}
    (hinsert : (s.insert (hash k)).run = some (.ok ((.inserted location, probes), s'))) :
    location.globalSlot < t.shape.n ∧ isFree (t.storage.ctrl location.globalSlot) ∧
      wp (insert group u k v (hash k))
        (fun r p => r = none ∧ p.1 = t.place location.globalSlot k v (hash k) false ∧ Follows u hash s' p.1)
        (fun _ _ => False) (t, w) := by
  obtain ⟨found, hsearch, hcase⟩ := ScalarFunnel.insert_cases hinsert
  rcases hcase with ⟨_, -, hresult, -⟩ | ⟨_, rfl, hroom, hresult, rfl⟩ | ⟨hresult | hresult, -⟩
  · cases hresult
  · cases hresult
    obtain ⟨-, habsent, hvacant⟩ := h.searched group hl hsearch
    have habsent := habsent fun location heq => by cases heq
    obtain ⟨hlt, hvacant, hreached, hvacancy⟩ := hvacant _ rfl
    have hroom' : t.len < t.shape.maxInsertions := by rwa [← h.mirrors.len, ← h.mirrors.limit]
    have hfree : isFree (t.storage.ctrl location.globalSlot) := (h.mirrors.free _).mpr hvacant
    have hmiss : ∀ slot, ¬Matches u t k slot true := by
      rintro slot ⟨e, he, hans⟩
      exact habsent slot e he (hl.congr k e.1 (hl.answers _ _ _ hans).symm).symm
    have hplaced : ∀ w, placeAbsent group u k v (hash k) (t, w) = _ := fun w => placeAbsent_eq hroom' hvacancy
    refine ⟨hlt, hfree, wp_mono (wp_insert_ends hcalm h.wf hmiss h.counted) ?_ ?_⟩
    · rintro r ⟨t', w'⟩ ⟨rfl, w₁, slot, p, hrun, hp⟩
      rw [hplaced] at hrun
      cases hrun
      obtain rfl : _ = t' := hp
      refine ⟨rfl, rfl, ?_⟩
      exact {
        wf := wf_place h.wf hlt hfree hroom'
        counted := counted_place h.wf hlt hfree h.counted
        sound := sound_place h.wf hlt ((hl.hashes _ _).mpr rfl) (.inr hreached) h.sound
        exceptional := h.exceptional
        used := h.used
        mirrors := h.mirrors.place hlt
        apart := by
          intro slot slot' e e' he he' heq
          rcases holds_place.mp he with ⟨rfl, -, rfl⟩ | ⟨-, he⟩
          · rcases holds_place.mp he' with ⟨rfl, -, rfl⟩ | ⟨-, he'⟩
            · rfl
            · exact absurd heq.symm (habsent slot' e' he')
          · rcases holds_place.mp he' with ⟨rfl, -, rfl⟩ | ⟨-, he'⟩
            · exact absurd heq (habsent slot e he)
            · exact h.apart slot slot' e e' he he' heq }
    · rintro p s ⟨w₁, p', hrun, -⟩
      rw [hplaced] at hrun
      cases hrun
  · cases hresult
  · cases hresult

theorem duplicated (group : GroupBackend)
    (hident : ∀ slot e, t.storage.Holds slot e → hash e.1 = hash k → eqv k e.1 = true)
    {location : ScalarFunnelLocation} {probes : Nat}
    (hinsert : (s.insert (hash k)).run = some (.ok ((.duplicate location, probes), s'))) :
    s' = s ∧ ∃ e, t.storage.Holds location.globalSlot e ∧ hash e.1 = hash k ∧
      wp (insert group u k v (hash k))
        (fun r p => r = some e.2 ∧ p.1 = t.replaceValue location.globalSlot e.1 v ∧ Follows u hash s p.1)
        (fun _ _ => False) (t, w) := by
  obtain ⟨found, hsearch, hcase⟩ := ScalarFunnel.insert_cases hinsert
  rcases hcase with ⟨_, rfl, hresult, rfl⟩ | ⟨_, -, -, hresult, -⟩ | ⟨hresult | hresult, -⟩
  · cases hresult
    obtain ⟨e, he, hsame⟩ := (h.searched group hl hsearch).1 _ rfl
    refine ⟨rfl, e, he, hsame, ?_⟩
    refine wp_mono (wp_insert_found hcalm h.wf (h.not_refuted hl he hsame (hident _ _ he hsame))) ?_ fun _ _ => id
    rintro r ⟨t', w'⟩ ⟨slot, e', he', hans, rfl, hp⟩
    have hsame' := hl.congr k e'.1 (hl.answers _ _ _ hans).symm
    obtain rfl := h.apart _ slot e e' he he' (hsame.trans hsame')
    obtain rfl := he.unique he'
    obtain rfl : t' = _ := hp
    refine ⟨rfl, rfl, ?_⟩
    exact {
      wf := wf_replaceValue h.wf he
      counted := counted_replaceValue he h.counted
      sound := sound_replaceValue he h.sound
      exceptional := h.exceptional
      used := h.used
      mirrors := h.mirrors.replaceValue he
      apart := by
        have hkey : ∀ {slot e'}, (t.replaceValue location.globalSlot e.1 v).storage.Holds slot e' →
            ∃ e'', t.storage.Holds slot e'' ∧ hash e''.1 = hash e'.1 := by
          intro slot e' he'
          rcases (holds_replaceValue he).mp he' with ⟨rfl, rfl⟩ | ⟨-, he'⟩
          · exact ⟨e, he, rfl⟩
          · exact ⟨e', he', rfl⟩
        intro slot slot' e₁ e₂ he₁ he₂ heq
        obtain ⟨e₁', he₁', hh₁⟩ := hkey he₁
        obtain ⟨e₂', he₂', hh₂⟩ := hkey he₂
        exact h.apart slot slot' e₁' e₂' he₁' he₂' (hh₁.trans (heq.trans hh₂.symm)) }
  · cases hresult
  · cases hresult
  · cases hresult

theorem finds (group : GroupBackend) (k : K)
    (hident : ∀ slot e, t.storage.Holds slot e → hash e.1 = hash k → eqv k e.1 = true) :
    ∃ answer, (s.search (hash k)).run = some answer ∧
      wp (find group u k (hash k)) (fun r p => r = (ScalarFunnel.outcome answer).hit? ∧ p.1 = t) (fun _ _ => False)
        (t, w) := by
  have houtcome : Option.map _ (s.search (hash k)).run = _ := h.mirrors.lays.search_eq (h.wf.laid h.used) h.mirrors.slots
  obtain ⟨answer, hsearch, houtcome⟩ := Option.map_eq_some_iff.mp houtcome
  refine ⟨answer, hsearch, ?_⟩
  rw [houtcome]
  have hmatch : ∀ {slot}, Matches u t k slot true → ∃ e, t.storage.Holds slot e ∧ hash e.1 = hash k := by
    rintro slot ⟨e, he, hans⟩
    exact ⟨e, he, (hl.congr k e.1 (hl.answers _ _ _ hans).symm).symm⟩
  have habsent : s.Absent (hash k) (t.walk (prepareFunnel t.probeSeed (hash k))) →
      wp (find group u k (hash k)) (fun r p => r = none ∧ p.1 = t) (fun _ _ => False) (t, w) := by
    intro habsent
    refine wp_mono (wp_findLocation h.wf eqStable_true ⟨rfl, rfl, trivial⟩) ?_ fun _ _ hp => hp.1.2 hcalm
    rintro (_ | slot) p ⟨hlooked, hfound⟩
    · exact ⟨rfl, hlooked.table⟩
    · obtain ⟨e, he, hsame⟩ := hmatch hfound
      exact absurd hsame (h.mirrors.refuted hl h.sound h.exceptional habsent he)
  rcases ScalarFunnel.firstDecided_spec h.mirrors.free (hash k)
      (t.walk (prepareFunnel t.probeSeed (hash k))) with ⟨slot, hhit, hslot⟩ | ⟨slot, hvacant, -, hnone⟩ |
      ⟨hend | hend, hnone⟩
  · obtain ⟨e, he, hsame⟩ := h.mirrors.stored h.wf hslot
    rw [hhit]
    refine wp_mono (wp_findLocation h.wf eqStable_true ⟨rfl, rfl, trivial⟩) ?_ fun _ _ hp => hp.1.2 hcalm
    rintro (_ | slot') p ⟨hlooked, hfound⟩
    · exact absurd hfound (h.not_refuted hl he hsame (hident _ _ he hsame))
    · obtain ⟨e', he', hsame'⟩ := hmatch hfound
      rw [h.apart slot' slot e' e he' he (hsame'.trans hsame.symm)]
      exact ⟨rfl, hlooked.table⟩
  · rw [hvacant]
    exact habsent hnone
  · rw [hend]
    exact habsent hnone
  · rw [hend]
    exact habsent hnone

omit hcalm hl in
include h in
theorem locations : ∃ ls, s.locations = some ls ∧ ∀ slot x,
    (∃ location, (location, x) ∈ ls ∧ location.globalSlot = slot) ↔ ∃ e, t.storage.Holds slot e ∧ hash e.1 = x := by
  have hlaid := h.wf.laid h.used
  obtain ⟨ls, hls, hlists⟩ := ScalarFunnel.locations_some fun slot hslot =>
    h.mirrors.lays.locationAtGlobalSlot_some hlaid h.mirrors.slots (h.mirrors.slots ▸ hslot)
  refine ⟨ls, hls, fun slot x => (hlists slot x).trans ⟨h.mirrors.stored h.wf, ?_⟩⟩
  rintro ⟨e, he, rfl⟩
  exact h.mirrors.held slot e he

omit hcalm hl h in
theorem start {n : Nat} {r : ReserveFraction} {shape : FunnelShape} (hn : n ≠ 0)
    (hshape : FunnelShape.fromSlots n r = .ok shape) (hsmall : shape.n < 2 ^ 63)
    (hnew : ScalarFunnel.new ⟨n, r.exponent⟩ (FunnelPrf.mk funnelProbeSeed).word Probe.rangeWordCap = some s) :
    Follows u hash s (fresh shape r (.empty shape.n) (.zeroed (Membership.wordCount shape.n)) : FunnelTable K V) := by
  obtain ⟨hlays, hslots, hlen, hlimit⟩ := ScalarFunnel.lays_new hn hshape hnew
  have hshapen : shape.n = n := (FunnelShape.fromSlots_spec hshape).1
  have hplanned : shape.Planned r := by rwa [FunnelShape.Planned, hshapen]
  have hstart := rebuilding_start (u := u)
    (t := fresh shape r (.empty shape.n) (.zeroed (Membership.wordCount shape.n))) hplanned hsmall .initial
  have hnone : ∀ {slot} {e : K × V}, ¬(Region.empty shape.n : Region (K × V)).Holds slot e := by
    intro slot e he
    have hocc := he.2.1
    rw [Region.occ_empty] at hocc
    cases hocc
  exact {
    wf := hstart.wf
    counted := hstart.counted
    sound := hstart.sound True
    exceptional := rfl
    used := by
      change shape.n ≠ 0
      rwa [hshapen]
    mirrors := {
      lays := hlays
      limit := hlimit
      len := hlen
      slots := by rw [hslots, List.length_replicate]; rfl
      vacant := by
        intro slot
        refine iff_of_true (fun stored hstored => ?_) rfl
        rw [hslots] at hstored
        have hmem := (List.mem_replicate.mp (List.mem_of_getElem? hstored)).2
        cases hmem
      clean := fun slot => (by decide : ctrlEmpty ≠ ctrlTombstone)
      held := fun slot e he => absurd he hnone }
    apart := fun slot slot' e e' he => absurd he hnone }

end Follows

end Opthash.Funnel.FunnelTable
