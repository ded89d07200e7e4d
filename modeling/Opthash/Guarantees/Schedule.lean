import Opthash.Elastic.Schedule
import Opthash.Guarantees.Panics
import Opthash.Guarantees.Vacancies

namespace Opthash.Elastic

open Exec HashMap Probe ElasticTable

variable {W K V : Type} {group : GroupBackend} {u : User W K V} {t : ElasticTable K V}

/-- Some probe of the level sends the hash to the location, and its pair is the first one or in the schedule. -/
def ElasticTable.Routed (t : ElasticTable K V) (loc : Nat × Nat) (x : UInt64) : Prop :=
  ∃ j, 0 < j ∧ t.probeSlot x loc.1 j = some loc.2 ∧
    ((loc.1 = 0 ∧ j = 1) ∨ t.routeIn loc.1 j ∈ t.probeSchedule)

theorem ElasticTable.Lodged.routed {loc : Nat × Nat} {x : UInt64} (hw : t.Wf) (hlevel : loc.1 < t.levels.length)
    (hexceptional : t.exceptional = false) (h : t.Lodged loc x) : t.Routed loc x := by
  rcases h.reachable with hflag | ⟨j, hj, hvisits, hslot⟩
  · rw [hexceptional] at hflag
    cases hflag
  · refine ⟨j, hj, hslot, ?_⟩
    by_cases hdirect : Direct loc.1 j
    · exact .inl hdirect
    · have hphi := hvisits.resolve_left hdirect
      exact .inr ((hw.schedule.mem _).mpr ⟨loc.1, j, hlevel, hj, hphi, hdirect, rfl⟩)

theorem ElasticTable.Chosen.covered {x : UInt64} {placement : ExactPlacement} (hw : t.Wf)
    (h : t.Chosen x placement) : ∃ t' j, t.extendProbeSchedule placement.phi = .ok t' ∧
      elasticPhi (placement.level + 1) j = .ok placement.phi ∧
      t'.probeSlot x placement.level j = some placement.slot ∧
      ((placement.level = 0 ∧ j = 1) ∨ t'.routeIn placement.level j ∈ t'.probeSchedule) := by
  obtain ⟨j, hoffers, hphi⟩ := h.offers
  obtain ⟨t', ht', hextended⟩ := extendProbeSchedule_spec hw.levels h.le
  have hlevels : t'.levels = t.levels := by rw [hextended.eq]
  refine ⟨t', j, ht', ?_, ?_, ?_⟩
  · have hle := h.le
    rw [hphi] at hle ⊢
    refine elasticPhi_eq (Nat.succ_pos _) hoffers.pos ?_
    unfold queryPositionCap at hle
    omega
  · rw [probeSlot_congr hextended.toExtends.capacities]
    exact hoffers.probed
  · by_cases hdirect : Direct placement.level j
    · exact .inl hdirect
    · refine .inr (((hextended.scheduled hw.schedule).mem _).mpr
        ⟨placement.level, j, hlevels ▸ hoffers.lt, hoffers.pos, ?_, hdirect, rfl⟩)
      rw [hextended.prior, ← hphi]
      exact Nat.le_max_right ..

/-- However it was extended, the schedule is the one of its mark, and it covers where entries are. -/
theorem schedule_exact :
    (∀ n r g, ElasticGeometry.forSlots n r = .ok (some g) → ∀ t : ElasticTable K V,
      t.capacities = g.levelCapacities → t.priorHighWater = 0 → t.probeSchedule = [] →
      ∀ positions : List Nat, (∀ position ∈ positions, position ≤ queryPositionCap) →
        ∃ t', positions.foldlM extendProbeSchedule t = .ok t' ∧ t'.capacities = g.levelCapacities ∧
          t'.OneShot (positions.foldl max 0)) ∧
    (∀ (A : Event (Elastic.backend group u) → Prop) t,
      Reachable (Elastic.backend group u) u (Initial group u) A t →
      t.OneShot t.priorHighWater.toNat ∧
      (∀ x target placement, t.chooseSlotForNewKey (PreparedElasticKey.new x).probe target = some placement →
        ∃ t' j, t.extendProbeSchedule placement.phi = .ok t' ∧
          elasticPhi (placement.level + 1) j = .ok placement.phi ∧
          t'.probeSlot x placement.level j = some placement.slot ∧
          ((placement.level = 0 ∧ j = 1) ∨ t'.routeIn placement.level j ∈ t'.probeSchedule)) ∧
      (t.exceptional = false → ∀ loc e, t.Holds loc e →
        ∃ x, (t.region loc.1).ctrl loc.2 = controlFingerprint x ∧ t.Routed loc x ∧
          ((∀ event, A event → event.2.1.Consistent u) → u.Hashes e.1 x))) := by
  constructor
  · intro n r g hg t hcaps hprior hschedule positions hpositions
    have hzero : t.priorHighWater.toNat = 0 := by rw [hprior]; rfl
    have hlevels : t.levels.length ≤ 32 := by
      have hlength := congrArg List.length hcaps
      rw [capacities, List.length_map] at hlength
      rw [hlength]
      exact (ElasticGeometry.laid_of_forSlots hg).levels
    obtain ⟨t', ht', hsame, hscheduled, hmark, hle⟩ := extend_all hlevels hpositions
      (by rw [hzero]; exact Nat.zero_le _) (scheduled_nil hschedule hzero)
    refine ⟨t', ht', ?_, ?_⟩
    · rw [capacities, hsame, ← capacities, hcaps]
    · rw [hzero] at hmark
      rw [← hmark]
      exact hscheduled.oneShot (hsame ▸ hlevels) hle
  · intro A t ht
    have hw := wf_of_reachable ht
    refine ⟨hw.schedule.oneShot hw.levels hw.highWater, ?_, ?_⟩
    · intro x target placement h
      exact (chooseSlotForNewKey_spec hw h).covered hw
    · intro hexceptional loc e he
      by_cases hconsistent : ∀ event, A event → event.2.1.Consistent u
      · obtain ⟨t₀, w₀, w, h₀, hruns⟩ := ht
        have hfresh := h₀.fresh
        obtain ⟨-, hsound⟩ := hruns.sound (q := False) (contract group u)
          (fun event h => ⟨hconsistent event h, False.elim⟩) hfresh.wf (hfresh.sound False)
        obtain ⟨x, hx, hplaced⟩ := hsound False.elim loc e he
        have hlodged : t.Lodged loc x := ElasticTable.Placed.toLodged hplaced
        exact ⟨x, hlodged.fingerprint, hlodged.routed hw he.level_lt hexceptional, fun _ => hx⟩
      · obtain ⟨x, hx⟩ := hw.lodged loc e he
        exact ⟨x, hx.fingerprint, hx.routed hw he.level_lt hexceptional, fun h => absurd h hconsistent⟩

/-- Three positions in a table of four slots, and the entry of one insertion. -/
theorem schedule_exact_insert :
    (∃ t' : ElasticTable UInt64 Nat, [5, 20, 3].foldlM extendProbeSchedule
        (fresh ⟨4, 2, [2, 2], [2, 0]⟩ ⟨1, by decide, by decide⟩ [.newAt 2, .newAt 2] (.zeroed 1)) = .ok t' ∧
      t'.capacities = [2, 2] ∧ t'.OneShot 20) ∧
    ∃ (t : ElasticTable UInt64 Nat) (loc : Nat × Nat), t.Holds loc (7, 70) ∧ t.OneShot t.priorHighWater.toNat ∧
      ∃ x, (t.region loc.1).ctrl loc.2 = controlFingerprint x ∧ t.Routed loc x ∧ User.sample.Hashes 7 x := by
  have hexact := @schedule_exact Unit UInt64 Nat .scalar User.sample
  constructor
  · exact hexact.1 4 ⟨1, by decide, by decide⟩ ⟨4, 2, [2, 2], [2, 0]⟩ (by decide +kernel) _ rfl rfl rfl [5, 20, 3]
      (by decide)
  · have hreplay : (replay (Elastic.backend .scalar User.sample) User.sample [.insert 7 70]
        (ElasticTable.unallocated, World.start)).any
          (fun s => decide (s.1.exceptional = false ∧ s.1.entries = [(7, 70)])) = true := by decide +kernel
    obtain ⟨t, w, ht, hstate⟩ := Reachable.replayed (A := fun e => e.2.1.Consistent User.sample) initial_unallocated
      World.start (by
        intro op hop s r
        obtain rfl := List.mem_singleton.mp hop
        exact trivial) _ hreplay
    obtain ⟨hexceptional, hentries⟩ := of_decide_eq_true hstate
    have hmem : ((7, 70) : UInt64 × Nat) ∈ t.entries := by
      rw [hentries]
      exact List.mem_singleton.mpr rfl
    obtain ⟨loc, hloc⟩ := mem_entries.mp hmem
    obtain ⟨honeshot, -, hrouted⟩ := hexact.2 _ t ht
    obtain ⟨x, hctrl, hroute, hx⟩ := hrouted hexceptional loc _ hloc
    exact ⟨t, loc, hloc, honeshot, x, hctrl, hroute, hx fun _ h => h⟩

end Opthash.Elastic
