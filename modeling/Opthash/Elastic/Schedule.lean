import Opthash.Elastic.Layout

namespace Opthash.Elastic

open Probe

section Count

variable {level j : Nat}

def levelPairs (level : Nat) : List (Nat × Nat) :=
  (List.range' (if level = 0 then 2 else 1) (levelRouteCount level)).map fun j => (level, j)

theorem mem_levelPairs (hl : level < 32) :
    (level, j) ∈ levelPairs level ↔ 0 < j ∧ phi (level + 1) j ≤ queryPositionCap ∧ ¬Direct level j := by
  have hmem : (level, j) ∈ levelPairs level ↔
      (if level = 0 then 2 else 1) ≤ j ∧ j < (if level = 0 then 2 else 1) + levelRouteCount level := by
    rw [levelPairs, List.mem_map, ← List.mem_range'_1]
    simp
  rw [hmem]
  constructor
  · rintro ⟨hstart, hend⟩
    have hpos : 0 < j := by
      split at hstart <;> omega
    refine ⟨hpos, (le_levelProbeLimit hl hpos).mp ?_, ?_⟩
    · unfold levelProbeLimit
      split at hend <;> simp_all <;> omega
    · rintro ⟨rfl, rfl⟩
      simp at hstart
  · rintro ⟨hpos, hphi, hdirect⟩
    have hlimit := (le_levelProbeLimit hl hpos).mpr hphi
    unfold levelProbeLimit at hlimit
    unfold Direct at hdirect
    split <;> simp_all <;> omega

theorem length_levelPairs (n : Nat) : ((List.range n).flatMap levelPairs).length = probeScheduleCapacity n := by
  rw [List.length_flatMap, probeScheduleCapacity]
  congr 1
  apply List.map_congr_left
  intro level _
  rw [levelPairs, List.length_map, List.length_range']

end Count

namespace ElasticTable

variable {K V : Type} {t t' : ElasticTable K V} {mark : Nat}

/-- The schedule as its definition in one piece gives it: all pairs of the geometry but the first one whose position
is at most the mark. -/
structure OneShot (t : ElasticTable K V) (mark : Nat) : Prop where
  highWater : t.priorHighWater.toNat = mark
  pairs : ∃ pairs : List (Nat × Nat), t.probeSchedule = pairs.map (fun p => t.routeIn p.1 p.2) ∧
    pairs.Pairwise (fun p q => phi (p.1 + 1) p.2 < phi (q.1 + 1) q.2) ∧
    ∀ level j, (level, j) ∈ pairs ↔ level < t.levels.length ∧ ¬(level = 0 ∧ j = 1) ∧
      ∃ position, elasticPhi (level + 1) j = .ok position ∧ position ≤ mark
  rangeUpper : ∀ r ∈ t.probeSchedule, r.level < t.levels.length ∧ r.rangeUpper = (t.region r.level).capacity
  fits : t.probeSchedule.length ≤ probeScheduleCapacity t.levels.length

theorem Scheduled.oneShot (hlevels : t.levels.length ≤ 32) (hprior : t.priorHighWater.toNat ≤ queryPositionCap)
    (h : t.Scheduled) : t.OneShot t.priorHighWater.toNat := by
  have hmem := h.mem
  obtain ⟨pairs, hschedule, hordered, hpairs⟩ := h
  have hposition : ∀ level j, (0 < j ∧ phi (level + 1) j ≤ t.priorHighWater.toNat) ↔
      ∃ position, elasticPhi (level + 1) j = .ok position ∧ position ≤ t.priorHighWater.toNat := by
    intro level j
    constructor
    · rintro ⟨hj, hphi⟩
      refine ⟨_, elasticPhi_eq (Nat.succ_pos level) hj ?_, hphi⟩
      unfold queryPositionCap at hprior
      omega
    · rintro ⟨position, hok, hle⟩
      obtain ⟨-, hj, -, rfl⟩ := elasticPhi_ok_iff.mp hok
      exact ⟨hj, hle⟩
  constructor
  · rfl
  · refine ⟨pairs, hschedule, hordered, fun level j => ?_⟩
    rw [hpairs, ← hposition]
    unfold Direct
    tauto
  · intro r hr
    obtain ⟨level, j, hlevel, -, hphi, -, rfl⟩ := (hmem r).mp hr
    have hprobe := probe_le_of_phi_le (Nat.succ_pos level) (Nat.le_trans hphi hprior)
    have hbase : (t.routeIn level j).level = level :=
      elasticCounterLevel_base (Nat.lt_of_lt_of_le hlevel hlevels) (by omega)
    rw [hbase]
    exact ⟨hlevel, rfl⟩
  · have hnodup : pairs.Nodup := hordered.imp fun h heq => by
      rw [heq] at h
      exact Nat.lt_irrefl _ h
    have hsub : pairs ⊆ (List.range t.levels.length).flatMap levelPairs := by
      rintro ⟨level, j⟩ hpair
      obtain ⟨hlevel, hj, hphi, hdirect⟩ := (hpairs level j).mp hpair
      exact List.mem_flatMap.mpr ⟨level, List.mem_range.mpr hlevel,
        (mem_levelPairs (Nat.lt_of_lt_of_le hlevel hlevels)).mpr ⟨hj, Nat.le_trans hphi hprior, hdirect⟩⟩
    rw [hschedule, List.length_map, ← length_levelPairs]
    exact (hnodup.subperm hsub).length_le

theorem extend_all (hlevels : t.levels.length ≤ 32) {positions : List Nat}
    (hcap : ∀ position ∈ positions, position ≤ queryPositionCap) (hprior : t.priorHighWater.toNat ≤ queryPositionCap)
    (h : t.Scheduled) : ∃ t', positions.foldlM extendProbeSchedule t = .ok t' ∧ t'.levels = t.levels ∧ t'.Scheduled ∧
      t'.priorHighWater.toNat = positions.foldl max t.priorHighWater.toNat ∧
      t'.priorHighWater.toNat ≤ queryPositionCap := by
  induction positions generalizing t with
  | nil => exact ⟨t, rfl, rfl, h, rfl, hprior⟩
  | cons position positions ih =>
    obtain ⟨hposition, hcap⟩ := List.forall_mem_cons.mp hcap
    obtain ⟨t₁, ht₁, hextended⟩ := extendProbeSchedule_spec hlevels hposition
    have hsame : t₁.levels = t.levels := by rw [hextended.eq]
    have hprior₁ : t₁.priorHighWater.toNat ≤ queryPositionCap := by
      rw [hextended.prior]
      exact Nat.max_le.mpr ⟨hprior, hposition⟩
    obtain ⟨t', ht', hsame', hscheduled, hmark, hle⟩ := ih (hsame ▸ hlevels) hcap hprior₁ (hextended.scheduled h)
    refine ⟨t', ?_, hsame'.trans hsame, hscheduled, ?_, hle⟩
    · rw [List.foldlM_cons, ht₁]
      exact ht'
    · rw [hmark, hextended.prior, List.foldl_cons]

end ElasticTable

end Opthash.Elastic
