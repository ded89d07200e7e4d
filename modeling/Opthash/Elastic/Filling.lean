import Opthash.Elastic.Methods
import Opthash.Elastic.Scheduler
import Opthash.Elastic.Searches
import Opthash.Exact.Loads

namespace Opthash.Elastic

open Exec Probe Opthash.Geometry

namespace ElasticGeometry

structure Planned (g : ElasticGeometry) (d : Nat) : Prop where
  plan : g.batchPlan = batchQuotasFrom d none g.maxInsertions g.levelCapacities
  positive : ∀ level ∈ g.levelCapacities, 0 < level
  room : g.maxInsertions ≤ rawQuotaSum d none g.levelCapacities

theorem planBuffer_ok {items plan : List Nat} (h : planBuffer items = .ok plan) : plan = items := by
  unfold planBuffer at h
  split at h
  · exact (Except.ok.inj h).symm
  · cases h

theorem forSlots_ok {n : Nat} {r : ReserveFraction} {g : ElasticGeometry} (hn : 2 ≤ n)
    (h : forSlots n r = .ok (some g)) : n ≤ maxElasticSlots ∧
      g = ⟨n, PaperConfig.maxInsertions ⟨n, r.exponent⟩, PaperConfig.levelLengths ⟨n, r.exponent⟩,
        PaperConfig.batchQuotas ⟨n, r.exponent⟩⟩ := by
  have hconfig : PaperConfig.new n r.exponent = .ok ⟨n, r.exponent⟩ := by
    have := r.positive
    rw [PaperConfig.new, if_neg (by omega), if_neg (by omega)]
  rw [forSlots] at h
  split at h
  · cases h
  rename_i hsmall
  rw [if_neg (by omega), if_neg (by omega), hconfig] at h
  dsimp only at h
  obtain ⟨levels, hlevels, h⟩ := bind_ok h
  obtain ⟨quotas, hquotas, h⟩ := bind_ok h
  obtain rfl := planBuffer_ok hlevels
  obtain rfl := planBuffer_ok hquotas
  cases h
  exact ⟨Nat.le_of_not_lt hsmall, rfl⟩

theorem forSlots_planned {n : Nat} {r : ReserveFraction} {g : ElasticGeometry} (h : forSlots n r = .ok (some g)) :
    g.Planned r.exponent := by
  rcases Nat.lt_or_ge n 2 with hlt | hn
  · obtain rfl | rfl : n = 0 ∨ n = 1 := by omega
    · cases h
      exact ⟨rfl, by simp, Nat.le_refl _⟩
    · cases h
      refine ⟨?_, by simp, ?_⟩
      · simp [batchQuotasFrom, ceilThreeQuarters]
      · simp [rawQuotaSum, ceilThreeQuarters]
  · obtain ⟨hsmall, rfl⟩ := forSlots_ok hn h
    have hsize : n ≤ usizeMax := by
      unfold maxElasticSlots at hsmall
      unfold usizeMax
      omega
    have hsum := @batchQuotas_sum ⟨n, r.exponent⟩ hn hsize r.positive
    rw [PaperConfig.batchQuotas, batchQuotasFrom_sum] at hsum
    exact ⟨rfl, (@levelLengths_spec ⟨n, r.exponent⟩ hn).1, min_eq_right_iff.mp hsum⟩

end ElasticGeometry

namespace ElasticTable

variable {W K V : Type} {group : GroupBackend} {u : User W K V} {t t' : ElasticTable K V} {k : K} {v : V} {x : UInt64}
  {w : World W K V} {placement : ExactPlacement}

/-- Where the active target sends a new key that hashes to `x`. -/
def targeted (t : ElasticTable K V) (x : UInt64) : Option ExactPlacement :=
  t.chooseSlotForNewKey (PreparedElasticKey.new x).probe (t.scheduler.target t.len).1

/-- The table in which the slot at the active target is ready for its entry. -/
structure Aimed (t : ElasticTable K V) (x : UInt64) (placement : ExactPlacement) (t' : ElasticTable K V) : Prop where
  prepared : t.Prepared t'
  scheduler : t'.scheduler = (t.scheduler.target t.len).2
  exceptional : t'.exceptional = t.exceptional
  target : t'.Target x (placement.level, placement.slot)

section Methods

theorem wp_preparePlacement_plan (hw : t.Wf) (h : t.Chosen x placement) {Z : Panic → ElasticTable K V → Prop} :
    wp (preparePlacement placement) (fun _ t' => t'.scheduler = t.scheduler ∧ t'.exceptional = t.exceptional) Z t := by
  obtain ⟨t', hext, hextended⟩ := extendProbeSchedule_spec hw.levels h.le
  rw [preparePlacement, wp_bind, wp_get, hext, liftPanic, pure_bind, wp_bind, wp_modify, wp_pure]
  exact ⟨by rw [hextended.eq], hextended.flag⟩

theorem wp_currentTarget_iff {Q : BatchTarget → ElasticTable K V → Prop} {Z : Panic → ElasticTable K V → Prop} :
    wp currentTarget Q Z t ↔ Q (t.scheduler.target t.len).1 { t with scheduler := (t.scheduler.target t.len).2 } := Iff.rfl

theorem wp_prepareInsert_targeted (hw : t.Wf) (hroom : t.len < t.maxInsertions) (h : t.targeted x = some placement)
    {Z : Panic → ElasticTable K V × World W K V → Prop} :
    wp (prepareInsert group u (.new x))
      (fun loc s => loc = (placement.level, placement.slot) ∧ t.Aimed x placement s.1 ∧ s.2 = w) Z (t, w) := by
  have hscheduled := hw.withScheduler (t.scheduler.target t.len).2
  have hchosen : ElasticTable.chooseSlotForNewKey { t with scheduler := (t.scheduler.target t.len).2 }
      (PreparedElasticKey.new x).probe (t.scheduler.target t.len).1 = some placement := h
  have hplacement := chooseSlotForNewKey_spec hscheduled hchosen
  rw [prepareInsert, wp_bind, wp_get]
  dsimp only
  rw [if_neg (Nat.not_le.mpr hroom), wp_bind, wp_onFst]
  rw [wp_currentTarget_iff, wp_bind, wp_get]
  dsimp only
  rw [hchosen]
  dsimp only
  rw [wp_onFst]
  refine wp_mono (wp_and (wp_preparePlacement (R := fun _ _ => False) hscheduled hplacement)
    (wp_preparePlacement_plan (Z := fun _ _ => False) hscheduled hplacement)) ?_ (fun _ _ h => h.1.elim)
  rintro loc t' ⟨⟨rfl, hprepared, htarget⟩, hscheduler, hexceptional⟩
  exact ⟨rfl, ⟨(prepared_scheduler hw _).trans hprepared, hscheduler, hexceptional, htarget⟩, rfl⟩

theorem wp_insert_targeted (hw : t.Wf) (hroom : t.len < t.maxInsertions) (h : t.targeted x = some placement) :
    wp (insert group u k v x)
      (fun r s => match r with
        | some _ => ∃ loc, Matches u t k loc true
        | none => Refuted u t k x ∧ ∃ t₁, t.Aimed x placement t₁ ∧
          s.1 = t₁.place (placement.level, placement.slot) k v x)
      (fun _ _ => ¬u.Calm) (t, w) := by
  have hstable : u.EqStable fun _ => True := fun _ _ _ _ => trivial
  rw [insert, wp_bind]
  have hfind := (wp_find hw hstable ⟨rfl, rfl, trivial⟩ : wp (find u k x) _ _ (t, w))
  refine User.wp_owned (κ := fun _ => 0) (fun hloud _ => hloud) (wp_mono hfind ?_ ?_)
  · rintro (_ | loc) ⟨t', w'⟩ ⟨hlooking, hfound⟩
    · obtain rfl : t' = t := hlooking.table
      dsimp only
      rw [wp_bind, insertForVacantEntryPrepared, wp_bind]
      refine User.wp_owned (κ := fun _ => 0) (fun hloud _ => hloud)
        (wp_mono (wp_prepareInsert_targeted (Z := fun _ _ => False) hw hroom h) ?_ (fun _ _ => False.elim))
      rintro _ s ⟨rfl, haimed, -⟩
      rw [wp_bind, wp_modify, wp_pure]
      exact ⟨hfound, s.1, haimed, rfl⟩
    · obtain rfl : t' = t := hlooking.table
      obtain ⟨e, he, hans⟩ := hfound
      simp only [replaceAt, wp_bind, wp_get, Region.getRef, he.2.2, expect, wp_pure, wp_modify, wp_onSnd]
      refine wp_mono (User.wp_dropBoth (κ := fun _ => 0) (User.wp_dropK k) (User.wp_dropV e.2) w') ?_ ?_
      · exact fun _ _ _ => ⟨loc, e, he, hans⟩
      · exact fun _ _ hburst => hburst.1.2
  · exact fun p s hpanic => ⟨fun _ => hpanic.1.2, fun _ _ _ => hpanic.1.2⟩

theorem wp_tryFromGeometry {g : ElasticGeometry} {r : ReserveFraction} {Z : Panic → World W K V → Prop} :
    wp (tryFromGeometry u g r) (fun res _ => ∀ t : ElasticTable K V, res = .ok t → (∀ cap ∈ g.levelCapacities, cap ≤ u32Max) ∧
      t = fresh g r (g.levelCapacities.map .newAt) (.zeroed (Membership.wordCount g.levelCapacities.sum))) Z w := by
  rw [tryFromGeometry, wp_bind]
  refine wp_mono wp_tryProbeSchedule ?_ (fun _ _ => id)
  rintro (e | _) w₁ -
  · intro t h
    cases h
  · dsimp only
    rw [wp_bind]
    refine wp_mono wp_tryAllocElasticArena ?_ (fun _ _ => id)
    rintro (e | ⟨levels, membership⟩) w₂ ⟨-, hnew⟩
    · intro t h
      cases h
    · obtain ⟨rfl, rfl, hsmall⟩ := hnew levels membership rfl
      intro t h
      cases h
      exact ⟨hsmall, rfl⟩

end Methods

section Stages

variable {g : ElasticGeometry} {d : Nat}

def loads (t : ElasticTable K V) : List Nat := t.levels.map Level.len

/-- A table that only ever took new keys at the active target. -/
structure Staged (g : ElasticGeometry) (d : Nat) (t : ElasticTable K V) : Prop where
  wf : t.Wf
  counted : t.Counted
  planned : g.Planned d
  positive : 0 < d
  capacities : t.capacities = g.levelCapacities
  maxInsertions : t.maxInsertions = g.maxInsertions
  exponent : t.reserveFraction.exponent = d
  scheduler : BatchScheduler.Synced g.batchPlan t.scheduler
  sum : t.len = t.loads.sum
  batched : g.levelCapacities ≠ [] → Batched d g.levelCapacities t.loads

theorem sum_loads (hc : t.Counted) : t.loads.sum = t.entries.length := by
  have hlevels : t.loads = t.levels.map fun l => l.region.entries.length :=
    List.map_congr_left fun l hl => (hc.levels l hl).1
  rw [hlevels, entries, List.length_flatMap]

theorem staged_start {n : Nat} {r : ReserveFraction} (hg : ElasticGeometry.forSlots n r = .ok (some g))
    (hsmall : ∀ cap ∈ g.levelCapacities, cap ≤ u32Max) :
    Staged g r.exponent (fresh g r (g.levelCapacities.map .newAt) (.zeroed (Membership.wordCount g.levelCapacities.sum)) :
      ElasticTable K V) := by
  have hlaid := ElasticGeometry.laid_of_forSlots hg
  have hblank : Blank (fresh g r (g.levelCapacities.map .newAt)
      (.zeroed (Membership.wordCount g.levelCapacities.sum)) : ElasticTable K V) g := ⟨rfl, rfl, rfl, rfl, rfl, rfl, rfl, rfl⟩
  have hcounted := hblank.counted
  exact {
    wf := hblank.wf hlaid hsmall
    counted := hcounted
    planned := ElasticGeometry.forSlots_planned hg
    positive := r.positive
    capacities := hblank.capacities
    maxInsertions := rfl
    exponent := rfl
    scheduler := BatchScheduler.synced_new _
    sum := by rw [sum_loads hcounted]; exact hcounted.len
    batched := by
      intro hne
      have hzero : ElasticTable.loads (fresh g r (g.levelCapacities.map .newAt)
          (.zeroed (Membership.wordCount g.levelCapacities.sum)) : ElasticTable K V) = g.levelCapacities.map fun _ => 0 := by
        rw [ElasticTable.loads, fresh, List.map_map]
        rfl
      rw [hzero]
      exact batched_start _ hne }

theorem batchEndAt_planned (hp : g.Planned d) (batch : Nat) :
    batchEndAt g.batchPlan batch = saturatingUsize (min (batchEnd d g.levelCapacities batch) g.maxInsertions) := by
  rw [batchEndAt, hp.plan, sum_take_batchQuotasFrom, batchEnd]

theorem currentLow_iff {current : Level K V} (hexp : t.reserveFraction.exponent = d) :
    t.CurrentLow current ↔ fullLoad d current.region.capacity ≤ current.len := by
  rw [CurrentLow, Level.freeSlots, ReserveFraction.floorHalfReserved, hexp, fullLoad]
  omega

theorem nextLow_iff {next : Level K V} (hcap : next.region.capacity ≤ u32Max) :
    NextLow next ↔ ceilThreeQuarters next.region.capacity ≤ next.len := by
  unfold u32Max at hcap
  have hfree : next.freeSlots ≤ next.region.capacity := Nat.sub_le ..
  have hsaturated : saturatingUsize (next.freeSlots * 4) = next.freeSlots * 4 := by
    unfold saturatingUsize usizeMax
    omega
  rw [NextLow, hsaturated]
  unfold Level.freeSlots ceilThreeQuarters
  omega

section Active

variable {batch : Nat}

theorem Staged.nonempty (h : Staged g d t) (hroom : t.len < t.maxInsertions) : g.levelCapacities ≠ [] := by
  intro hnil
  have hlimit := h.planned.room
  rw [hnil, rawQuotaSum] at hlimit
  rw [h.maxInsertions] at hroom
  omega

theorem Staged.small (h : Staged g d t) : t.len < usizeMax := by
  have hslots := Capacity.maxInsertions_le t.totalSlots t.reserveFraction
  have htotal := h.wf.slots
  have hlimit := h.wf.limit
  have hcaps : t.capacities.sum ≤ 32 * u32Max := by
    have hlevels := h.wf.levels
    have hsum := List.sum_le_card_nsmul t.capacities u32Max h.wf.small
    have hlength : t.capacities.length = t.levels.length := List.length_map ..
    rw [hlength] at hsum
    exact hsum.trans (Nat.mul_le_mul_right _ hlevels)
  rw [← h.wf.maxInsertions] at hslots
  unfold u32Max at hcaps
  unfold usizeMax
  omega

theorem Staged.active (h : Staged g d t) (hroom : t.len < t.maxInsertions) :
    ∃ batch, Active d g.levelCapacities t.loads batch ∧
      (t.scheduler.target t.len).1 = if batch = 0 then .bootstrap else .levelPair (batch - 1) := by
  have hlimit : t.loads.sum < g.maxInsertions := by
    rw [← h.sum, ← h.maxInsertions]
    exact hroom
  have hbatched := h.batched (h.nonempty hroom)
  obtain ⟨batch, hactive⟩ := hbatched.active h.positive h.planned.positive (Nat.lt_of_lt_of_le hlimit h.planned.room)
  have hplan : g.batchPlan.length = g.levelCapacities.length := by
    rw [h.planned.plan, batchQuotasFrom_length]
  have hsmall := h.small
  have hcurrent : batchAt g.batchPlan t.len = batch := by
    apply batchAt_of_window
    · rw [hplan]
      exact hactive.lt_length
    · cases batch with
      | zero => exact Nat.zero_le _
      | succ batch =>
        have hstart := hactive.sum_ge h.positive
        rw [if_neg (Nat.succ_ne_zero batch), Nat.add_sub_cancel, batchEndAt_planned h.planned, h.sum]
        exact (Nat.min_le_left ..).trans ((Nat.min_le_left ..).trans hstart)
    · have hend := hactive.sum_lt h.positive
      rw [batchEndAt_planned h.planned, h.sum]
      rw [h.sum] at hsmall
      exact Nat.lt_min.mpr ⟨Nat.lt_min.mpr ⟨hend, hlimit⟩, hsmall⟩
  refine ⟨batch, hactive, ?_⟩
  rw [(h.scheduler.target t.len).1, targetAt, hcurrent]

/-- A location of the level a new entry may be written to. -/
def Open (t : ElasticTable K V) (level : Nat) : Prop := ∃ slot, t.Vacant (level, slot)

/-- The levels the rule of a target may choose are open, its budget exists and its two levels are not both low. -/
def Roomy (t : ElasticTable K V) : BatchTarget → Prop
  | .bootstrap => t.Open 0
  | .levelPair i => ∃ current next, t.Pair i current next ∧ ¬(t.CurrentLow current ∧ NextLow next) ∧
      (¬t.CurrentLow current → t.Open i ∧ ∃ budget, elasticDyadicProbeBudget current.freeSlots current.region.capacity
        t.reserveFraction.exponent elasticProbeBudgetC = .ok budget) ∧
      (¬NextLow next → t.Open (i + 1))

theorem open_of_freeSlots {level : Nat} {l : Level K V} (hw : t.Wf) (hc : t.Counted) (hl : t.levels[level]? = some l)
    (hfree : 0 < l.freeSlots) : t.Open level := by
  have hmem := List.mem_of_getElem? hl
  have hlen := (hc.levels l hmem).1
  unfold Level.freeSlots at hfree
  obtain ⟨slot, hslot, hctrl⟩ := Region.exists_free (hw.filled l hmem) (by omega)
  refine ⟨slot, ?_, ?_⟩
  · rw [region_of_getElem? hl]
    exact hslot
  · rw [region_of_getElem? hl]
    exact hctrl

theorem loads_getD {level : Nat} {l : Level K V} (hl : t.levels[level]? = some l) : t.loads.getD level 0 = l.len := by
  rw [loads, List.getD_eq_getElem?_getD, List.getElem?_map, hl]
  rfl

theorem capacities_getD {level : Nat} {l : Level K V} (hl : t.levels[level]? = some l) :
    t.capacities.getD level 0 = l.region.capacity := by
  rw [capacities, List.getD_eq_getElem?_getD, List.getElem?_map, hl]
  rfl

theorem Staged.length (h : Staged g d t) : t.levels.length = g.levelCapacities.length := by
  rw [← h.capacities, ElasticTable.capacities, List.length_map]

theorem Staged.pair (h : Staged g d t) (hlt : batch + 1 < g.levelCapacities.length) :
    ∃ current next, t.Pair batch current next := by
  rw [← h.length] at hlt
  exact ⟨t.levels[batch], t.levels[batch + 1], List.getElem?_eq_getElem (by omega), List.getElem?_eq_getElem hlt⟩

theorem Staged.currentLow_iff {current next : Level K V} (h : Staged g d t) (hp : t.Pair batch current next) :
    t.CurrentLow current ↔ fullLoad d (g.levelCapacities.getD batch 0) ≤ t.loads.getD batch 0 := by
  rw [← h.capacities, capacities_getD hp.current, loads_getD hp.current]
  exact ElasticTable.currentLow_iff h.exponent

theorem Staged.nextLow_iff {current next : Level K V} (h : Staged g d t) (hp : t.Pair batch current next) :
    NextLow next ↔ ceilThreeQuarters (g.levelCapacities.getD (batch + 1) 0) ≤ t.loads.getD (batch + 1) 0 := by
  rw [← h.capacities, capacities_getD hp.next, loads_getD hp.next]
  exact ElasticTable.nextLow_iff (h.wf.small _ (List.mem_map_of_mem (List.mem_of_getElem? hp.next)))

theorem Staged.roomy (h : Staged g d t) (hroom : t.len < t.maxInsertions) : t.Roomy (t.scheduler.target t.len).1 := by
  obtain ⟨batch, hactive, htarget⟩ := h.active hroom
  rw [htarget]
  cases batch with
  | zero =>
    obtain ⟨l, -, hl, -⟩ := level_of_lt (h.length ▸ hactive.lt_length : 0 < t.levels.length)
    have hload := hactive.load_first
    rw [← h.capacities, capacities_getD hl, loads_getD hl] at hload
    have hle := ceilThreeQuarters_le_self l.region.capacity
    exact open_of_freeSlots h.wf h.counted hl (by unfold Level.freeSlots; omega)
  | succ batch =>
    obtain ⟨current, next, hpair⟩ := h.pair hactive.lt_length
    have hboth := hactive.not_both
    refine ⟨current, next, hpair, ?_, ?_, ?_⟩
    · rw [h.currentLow_iff hpair, h.nextLow_iff hpair]
      omega
    · intro hlow
      obtain ⟨k, -, hbudget⟩ := bounded_budget h.wf hpair hlow
      exact ⟨open_of_freeSlots h.wf h.counted hpair.current (Nat.lt_of_le_of_lt (Nat.zero_le _) (Nat.lt_of_not_le hlow)),
        _, hbudget⟩
    · intro hlow
      have hfree : 0 < next.freeSlots := by
        by_contra hzero
        apply hlow
        rw [NextLow, Nat.eq_zero_of_not_pos hzero]
        exact Nat.zero_le _
      exact open_of_freeSlots h.wf h.counted hpair.next hfree

theorem Staged.chosen {target : BatchTarget} (h : Staged g d t) (hactive : Active d g.levelCapacities t.loads batch)
    (htarget : target = if batch = 0 then .bootstrap else .levelPair (batch - 1))
    (hchoose : t.chooseSlotForNewKey (PreparedElasticKey.new x).probe target = some placement) :
    Batched d g.levelCapacities (t.loads.modify placement.level (· + 1)) := by
  obtain ⟨n, j, hsearch, -⟩ := exists_searches hchoose
  cases batch with
  | zero =>
    obtain rfl : target = .bootstrap := htarget
    generalize placement.level = level at hsearch ⊢
    cases hsearch with
    | bootstrap => exact hactive.place_first
  | succ batch =>
    obtain rfl : target = .levelPair batch := htarget
    have hboth := hactive.not_both
    generalize placement.level = level at hsearch ⊢
    cases hsearch with
    | nearlyFull hpair hlow =>
      apply hactive.place_next
      rw [h.currentLow_iff hpair] at hlow
      omega
    | nextNearlyFull hpair hlow =>
      apply hactive.place_current
      rw [h.currentLow_iff hpair] at hlow
      omega
    | bounded hpair hlow =>
      apply hactive.place_current
      rw [h.currentLow_iff hpair] at hlow
      omega
    | fallback hpair hlow hnext =>
      apply hactive.place_next
      rw [h.nextLow_iff hpair] at hnext
      omega

theorem loads_place {loc : Nat × Nat} : (t.place loc k v x).loads = t.loads.modify loc.1 (· + 1) := by
  rw [loads, levels_place, loads]
  apply List.ext_getElem?
  intro level
  rw [List.getElem?_map, List.getElem?_modify, List.getElem?_modify, List.getElem?_map]
  by_cases hlevel : loc.1 = level
  · cases t.levels[level]? <;> simp [hlevel, Level.write]
  · cases t.levels[level]? <;> simp [hlevel]

theorem Aimed.loads {t₁ : ElasticTable K V} (h : t.Aimed x placement t₁) : t₁.loads = t.loads := by
  rw [ElasticTable.loads, h.prepared.levels, ElasticTable.loads]

theorem Staged.place {t₁ : ElasticTable K V} (h : Staged g d t) (hroom : t.len < t.maxInsertions)
    (hchoose : t.targeted x = some placement) (ha : t.Aimed x placement t₁) :
    Staged g d (t₁.place (placement.level, placement.slot) k v x) := by
  have hp := ha.prepared
  have hcounted : (t₁.place (placement.level, placement.slot) k v x).Counted :=
    counted_place ha.target.vacant (hp.counted h.counted)
  obtain ⟨batch, hactive, htarget⟩ := h.active hroom
  exact {
    wf := wf_place hp.wf ha.target (by rw [hp.len, hp.maxInsertions]; exact hroom)
    counted := hcounted
    planned := h.planned
    positive := h.positive
    capacities := samePlan_place.capacities.trans (hp.toExtends.capacities.trans h.capacities)
    maxInsertions := hp.maxInsertions.trans h.maxInsertions
    exponent := by
      rw [← h.exponent, samePlan_place.reserveFraction, hp.eq]
    scheduler := by
      have hscheduler : (t₁.place (placement.level, placement.slot) k v x).scheduler = t₁.scheduler := rfl
      rw [hscheduler, ha.scheduler]
      exact (h.scheduler.target t.len).2
    sum := by rw [sum_loads hcounted]; exact hcounted.len
    batched := by
      intro _
      rw [loads_place, ha.loads]
      exact h.chosen hactive htarget hchoose }

end Active

/-- Insertions of new keys for each of which the active target has a slot. Between two of them the rest of the
program may do to its own state whatever it likes. -/
inductive Fills (group : GroupBackend) (u : User W K V) :
    ElasticTable K V × World W K V → ElasticTable K V × World W K V → Prop
  | refl (s : ElasticTable K V × World W K V) : Fills group u s s
  | beside {s : ElasticTable K V × World W K V} {t : ElasticTable K V} {w : World W K V} (w' : World W K V)
      (h : Fills group u s (t, w)) : Fills group u s (t, w')
  | insert {s s' s'' : ElasticTable K V × World W K V} {k : K} {v : V} {x : UInt64} {placement : ExactPlacement}
      (h : Fills group u s s') (hroom : s'.1.len < s'.1.maxInsertions) (htarget : s'.1.targeted x = some placement)
      (hnew : ElasticTable.insert group u k v x s' = (.ok none, s'')) : Fills group u s s''

theorem Fills.staged {s s' : ElasticTable K V × World W K V} (h : Fills group u s s') (hs : Staged g d s.1) :
    Staged g d s'.1 := by
  induction h with
  | refl => exact hs
  | beside _ _ ih => exact ih
  | insert _ hroom htarget hnew ih =>
    obtain ⟨-, t₁, haimed, hplaced⟩ := (wp_of_ok hnew).mp (wp_insert_targeted ih.wf hroom htarget)
    rw [hplaced]
    exact ih.place hroom htarget haimed

theorem uncut {batch : Nat} (hp : g.Planned d) (hd : 0 < d) (hbatch : batch + 1 < g.levelCapacities.length)
    (hquota : g.batchPlan.getD (batch + 1) 0 =
      fullLoad d (g.levelCapacities.getD batch 0) - ceilThreeQuarters (g.levelCapacities.getD batch 0) +
        ceilThreeQuarters (g.levelCapacities.getD (batch + 1) 0)) :
    (g.batchPlan.take (batch + 2)).sum = batchEnd d g.levelCapacities (batch + 1) := by
  have hlength : g.batchPlan.length = g.levelCapacities.length := by rw [hp.plan, batchQuotasFrom_length]
  have hsum : (g.batchPlan.take (batch + 2)).sum = (g.batchPlan.take (batch + 1)).sum + g.batchPlan.getD (batch + 1) 0 := by
    rw [List.take_add_one, List.sum_append, List.getElem?_eq_getElem (by omega), List.getD_eq_getElem _ _ (by omega)]
    simp
  have hlater : (g.batchPlan.take (batch + 2)).sum = min (batchEnd d g.levelCapacities (batch + 1)) g.maxInsertions := by
    rw [hp.plan, sum_take_batchQuotasFrom, batchEnd]
  have hearlier : (g.batchPlan.take (batch + 1)).sum = min (batchEnd d g.levelCapacities batch) g.maxInsertions := by
    rw [hp.plan, sum_take_batchQuotasFrom, batchEnd]
  obtain ⟨before, current, rest, hsplit, rfl⟩ := split_at (Nat.lt_of_succ_lt hbatch)
  rw [hsplit] at hbatch hquota hlater hearlier ⊢
  cases rest with
  | nil => simp at hbatch
  | cons next after =>
    have hpos := ceilThreeQuarters_pos (hp.positive next (by rw [hsplit]; simp))
    have hfit : ceilThreeQuarters current ≤ fullLoad d current := ceilThreeQuarters_le hd current
    have hcurrent : (before ++ current :: next :: after).getD before.length 0 = current := by
      simp [List.getD_eq_getElem?_getD]
    have hnext : (before ++ current :: next :: after).getD (before.length + 1) 0 = next := by
      simp [List.getD_eq_getElem?_getD]
    rw [batchEnd_append hd] at hearlier
    rw [batchEnd_append_succ hd] at hlater ⊢
    rw [hcurrent, hnext] at hquota
    omega

theorem Staged.ended {batch : Nat} {current next : Level K V} (h : Staged g d t) (hpair : t.Pair batch current next)
    (hquota : g.batchPlan.getD (batch + 1) 0 = fullLoad d current.region.capacity -
      ceilThreeQuarters current.region.capacity + ceilThreeQuarters next.region.capacity)
    (hend : t.len = (g.batchPlan.take (batch + 2)).sum) :
    current.len = fullLoad d current.region.capacity ∧ next.len = ceilThreeQuarters next.region.capacity := by
  have hlt := (List.getElem?_eq_some_iff.mp hpair.next).1
  rw [h.length] at hlt
  have hcurrent := capacities_getD hpair.current
  have hnext := capacities_getD hpair.next
  rw [h.capacities] at hcurrent hnext
  rw [← hcurrent, ← hnext] at hquota
  have hover := uncut h.planned h.positive hlt hquota
  have hne : g.levelCapacities ≠ [] := List.ne_nil_of_length_pos (Nat.lt_of_le_of_lt (Nat.zero_le _) hlt)
  have hloads := (h.batched hne).ended h.positive h.planned.positive hlt (by rw [← h.sum, hend, hover])
  rwa [loads_getD hpair.current, loads_getD hpair.next, hcurrent, hnext] at hloads

end Stages

end ElasticTable

end Opthash.Elastic
