import Opthash.Elastic.Updates

namespace Opthash.Elastic.ElasticTable

open Exec Probe

variable {W K V : Type} {u : User W K V} {q : Prop} {t t' : ElasticTable K V} {x : UInt64}

section Choose

variable {probe : PreparedElasticProbe} {level slot j : Nat} {target : BatchTarget} {placement : ExactPlacement}

/-- A free slot to which the `j`th probe of a level sends the hash `x`. -/
structure Offers (t : ElasticTable K V) (x : UInt64) (level slot j : Nat) : Prop where
  lt : level < t.levels.length
  pos : 0 < j
  probed : t.probeSlot x level j = some slot
  free : isFree ((t.region level).ctrl slot)

theorem vacancy_spec {index : Nat} (h : t.vacancy level (PreparedElasticKey.new x).probe index = some slot) :
    t.Offers x level slot (index + 1) := by
  obtain ⟨found, hroute, hfree⟩ := Option.bind_eq_some_iff.mp h
  obtain ⟨l, hl, hroute⟩ := Option.bind_eq_some_iff.mp hroute
  split at hfree
  · rename_i hctrl
    cases hfree
    refine ⟨(List.getElem?_eq_some_iff.mp hl).1, Nat.succ_pos _, ?_, hctrl⟩
    rw [probeSlot, region_of_getElem? hl]
    exact hroute
  · cases hfree

theorem firstVacancy_spec {budget : Nat}
    (h : t.firstVacancy (PreparedElasticKey.new x).probe level budget = some (slot, j)) :
    t.Offers x level slot j ∧ j ≤ budget := by
  obtain ⟨index, hindex, hmap⟩ := List.exists_of_findSome?_eq_some h
  obtain ⟨found, hvacancy, heq⟩ := Option.map_eq_some_iff.mp hmap
  cases heq
  exact ⟨vacancy_spec hvacancy, List.mem_range.mp hindex⟩

theorem selectSlot_spec (h : t.selectSlot (PreparedElasticKey.new x).probe target = some (level, slot, j)) :
    t.Offers x level slot j ∧ j ≤ levelProbeLimit level := by
  have huniform : ∀ level' : Nat, ((t.uniformVacancy (PreparedElasticKey.new x).probe level').map
      fun found => (level', found)) = some (level, slot, j) → t.Offers x level slot j ∧ j ≤ levelProbeLimit level := by
    intro level' hmap
    obtain ⟨⟨slot', j'⟩, hfound, heq⟩ := Option.map_eq_some_iff.mp hmap
    cases heq
    exact firstVacancy_spec hfound
  cases target with
  | bootstrap =>
    rw [selectSlot] at h
    exact huniform 0 h
  | levelPair current =>
    obtain ⟨currentLevel, -, h⟩ := Option.bind_eq_some_iff.mp h
    obtain ⟨nextLevel, -, h⟩ := Option.bind_eq_some_iff.mp h
    dsimp only at h
    split at h
    · exact huniform _ h
    · split at h
      · exact huniform _ h
      · obtain ⟨budget, -, h⟩ := Option.bind_eq_some_iff.mp h
        split at h
        · rename_i found hfound
          cases h
          have := firstVacancy_spec hfound
          exact ⟨this.1, Nat.le_trans this.2 (Nat.min_le_right ..)⟩
        · exact huniform _ h

structure Chosen (t : ElasticTable K V) (x : UInt64) (placement : ExactPlacement) : Prop where
  offers : ∃ j, t.Offers x placement.level placement.slot j ∧ placement.phi = phi (placement.level + 1) j
  le : placement.phi ≤ queryPositionCap

theorem chooseSlotForNewKey_spec (hw : t.Wf)
    (h : t.chooseSlotForNewKey (PreparedElasticKey.new x).probe target = some placement) : t.Chosen x placement := by
  unfold chooseSlotForNewKey at h
  split at h
  · cases h
  · obtain ⟨⟨level, slot, j⟩, hselect, h⟩ := Option.bind_eq_some_iff.mp h
    obtain ⟨hoffers, hlimit⟩ := selectSlot_spec hselect
    have hl := Nat.lt_of_lt_of_le hoffers.lt hw.levels
    have hphi := (le_levelProbeLimit hl hoffers.pos).mp hlimit
    have hpos : 0 < level + 1 := Nat.succ_pos level
    have hj := probe_le_of_phi_le hpos hphi
    obtain ⟨position, hposition, h⟩ := Option.bind_eq_some_iff.mp h
    rw [elasticPhiBounded_eq hpos (by omega) hoffers.pos (by omega)] at hposition
    cases hposition
    rw [if_neg (by omega)] at h
    cases h
    exact ⟨⟨j, hoffers, rfl⟩, hphi⟩

theorem chooseSlotOnOtherTargets_spec (hw : t.Wf)
    (h : t.chooseSlotOnOtherTargets (PreparedElasticKey.new x).probe target = some placement) :
    t.Chosen x placement := by
  obtain ⟨other, -, hchoose⟩ := List.exists_of_findSome?_eq_some h
  exact chooseSlotForNewKey_spec hw hchoose

end Choose

/-- A table that differs in its schedule and scheduler only, and visits at least what it visited. -/
structure Prepared (t t' : ElasticTable K V) : Prop where
  eq : t' = { t with
    scheduler := t'.scheduler, probeSchedule := t'.probeSchedule, probeHighWater := t'.probeHighWater }
  wf : t'.Wf
  toExtends : t.Extends t'

namespace Prepared

theorem trans {t'' : ElasticTable K V} (h : t.Prepared t') (h' : t'.Prepared t'') : t.Prepared t'' := by
  refine ⟨?_, h'.wf, h.toExtends.trans h'.toExtends⟩
  rw [h'.eq, h.eq]

theorem region (h : t.Prepared t') (level : Nat) : t'.region level = t.region level := by
  rw [h.eq]
  rfl

theorem len (h : t.Prepared t') : t'.len = t.len := by rw [h.eq]

theorem maxInsertions (h : t.Prepared t') : t'.maxInsertions = t.maxInsertions := by rw [h.eq]

theorem totalSlots (h : t.Prepared t') : t'.totalSlots = t.totalSlots := by rw [h.eq]

theorem levels (h : t.Prepared t') : t'.levels = t.levels := by rw [h.eq]

theorem entries (h : t.Prepared t') : t'.entries = t.entries := by
  rw [ElasticTable.entries, h.levels, ← ElasticTable.entries]

theorem holds (h : t.Prepared t') {loc : Nat × Nat} {e : K × V} : t'.Holds loc e ↔ t.Holds loc e := by
  rw [Holds, h.region, Holds]

theorem counted (h : t.Prepared t') (hc : t.Counted) : t'.Counted where
  len := by rw [h.len, h.entries]; exact hc.len
  levels := by rw [h.levels]; exact hc.levels

theorem sound (h : t.Prepared t') (hs : t.Sound u q) : t'.Sound u q :=
  hs.mono h.toExtends fun loc e he => ⟨e, rfl, h.holds.mp he, by rw [h.region]⟩

theorem exact (h : t.Prepared t') (he : t.Exact u) : t'.Exact u := by
  obtain ⟨hashAt, hhash, hmem⟩ := he
  have hm : t'.membership = t.membership := by rw [h.eq]
  have ho : t'.occupied = t.occupied := by
    rw [occupied, occupied, h.levels]
    simp only [h.region]
  refine ⟨hashAt, fun loc e he => hhash loc e (h.holds.mp he), ?_⟩
  rw [ho, recordAll_congr (congrArg MembershipRegion.words hm), hm]
  exact hmem

end Prepared

section Prepare

theorem Wf.withScheduler (hw : t.Wf) (scheduler : BatchScheduler) : { t with scheduler }.Wf :=
  ⟨hw.levels, hw.slots, hw.small, hw.maxInsertions, hw.filled, hw.fits, hw.limit, hw.words, hw.highWater, hw.schedule,
    fun loc e he => (hw.lodged loc e he).imp fun _ hx => ⟨hx.fingerprint, hx.reachable⟩⟩

theorem prepared_scheduler (hw : t.Wf) (scheduler : BatchScheduler) : t.Prepared { t with scheduler } :=
  ⟨rfl, hw.withScheduler scheduler, ⟨rfl, rfl, fun _ => id, id, Nat.le_refl _⟩⟩

theorem wp_currentTarget (hw : t.Wf) {R : Panic → ElasticTable K V → Prop} :
    wp currentTarget (fun target t' => target = (t.scheduler.target t.len).1 ∧ t.Prepared t') R t :=
  ⟨rfl, prepared_scheduler hw _⟩

theorem Extended.prepared {highWater : Nat} (hw : t.Wf) (hcap : highWater ≤ queryPositionCap)
    (h : t.Extended highWater t') : t.Prepared t' := by
  have heq := h.eq
  have hlevels : t'.levels = t.levels := by rw [heq]
  refine ⟨by rw [heq], ?_, h.toExtends⟩
  exact {
    levels := by rw [hlevels]; exact hw.levels
    slots := by rw [heq]; exact hw.slots
    small := by rw [heq]; exact hw.small
    maxInsertions := by rw [heq]; exact hw.maxInsertions
    filled := by rw [hlevels]; exact hw.filled
    fits := by rw [heq]; exact hw.fits
    limit := by rw [heq]; exact hw.limit
    words := by rw [heq]; exact hw.words
    highWater := by rw [h.prior]; exact Nat.max_le.mpr ⟨hw.highWater, hcap⟩
    schedule := h.scheduled hw.schedule
    lodged := by
      refine hw.lodged_mono h.toExtends.capacities h.toExtends.exceptional h.toExtends.prior fun loc e he => ?_
      have hholds : t.Holds loc e := by rw [heq] at he; exact he
      exact ⟨⟨e, hholds⟩, by rw [heq]; rfl⟩ }

theorem wp_preparePlacement {placement : ExactPlacement} (hw : t.Wf) (h : t.Chosen x placement)
    {R : Panic → ElasticTable K V → Prop} :
    wp (preparePlacement placement)
      (fun loc t' => loc = (placement.level, placement.slot) ∧ t.Prepared t' ∧ t'.Target x loc) R t := by
  obtain ⟨t', hext, hextended⟩ := extendProbeSchedule_spec hw.levels h.le
  have hprepared := hextended.prepared hw h.le
  rw [preparePlacement, wp_bind, wp_get, hext, liftPanic, pure_bind, wp_bind, wp_modify, wp_pure]
  refine ⟨rfl, hprepared, ?_, ?_⟩
  · obtain ⟨j, hoffers, -⟩ := h.offers
    refine Vacant.of_capacities ⟨?_, hoffers.free⟩ hprepared.region
    exact probeSlot_lt hw hoffers.probed
  · obtain ⟨j, hoffers, hphi⟩ := h.offers
    refine .inr ⟨j, hoffers.pos, .inr ?_, ?_⟩
    · rw [hextended.prior, ← hphi]
      exact Nat.le_max_right ..
    · rw [probeSlot_congr hprepared.toExtends.capacities]
      exact hoffers.probed

theorem prepared_exceptional (hw : t.Wf) :
    t.Prepared { t with probeHighWater := t.probeHighWater ||| exceptionalPlacementFlag } := by
  have hprior : (ElasticTable.priorHighWater { t with
      probeHighWater := t.probeHighWater ||| exceptionalPlacementFlag }) = t.priorHighWater := flag_and_not_flag
  refine ⟨rfl, ⟨hw.levels, hw.slots, hw.small, hw.maxInsertions, hw.filled, hw.fits, hw.limit, hw.words, ?_, ?_, ?_⟩, ?_⟩
  · rw [hprior]
    exact hw.highWater
  · exact hw.schedule.congr rfl rfl hprior fun _ _ => rfl
  · have hflag : ElasticTable.exceptional { t with probeHighWater := t.probeHighWater ||| exceptionalPlacementFlag } =
        true := by
      rw [exceptional, flag_and_flag]
      decide
    exact fun loc e he => (hw.lodged loc e he).imp fun _ hx => ⟨hx.fingerprint, .inl hflag⟩
  · refine ⟨rfl, rfl, fun _ => id, fun _ => ?_, ?_⟩
    · rw [exceptional, flag_and_flag]
      decide
    · rw [hprior]

theorem wp_prepareExceptional (hw : t.Wf) (hroom : t.entries.length < t.totalSlots)
    {R : Panic → ElasticTable K V → Prop} :
    wp prepareExceptional (fun loc t' => t.Prepared t' ∧ t'.Target x loc) R t := by
  obtain ⟨loc, hfind, -, hslot, hfree⟩ := hw.exists_free hroom
  have hprepared := prepared_exceptional hw
  rw [prepareExceptional, wp_bind, wp_get, wp_bind, wp_expect]
  refine ⟨fun loc' h => ?_, fun h => by rw [hfind] at h; cases h⟩
  rw [hfind] at h
  cases h
  rw [wp_bind, wp_modify, wp_pure]
  refine ⟨hprepared, Vacant.of_capacities ⟨hslot, hfree⟩ hprepared.region, .inl ?_⟩
  rw [exceptional, flag_and_flag]
  decide

end Prepare

end Opthash.Elastic.ElasticTable
