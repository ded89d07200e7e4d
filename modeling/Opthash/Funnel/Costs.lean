import Mathlib.Data.List.Flatten
import Opthash.Comparisons
import Opthash.Funnel.Budget
import Opthash.Funnel.Lookup

namespace Opthash.Funnel

open Exec Probe Probing Opthash.Geometry

/-- The slots a probe comes past: a bucket in each of the ordinary levels, the primary probes and two fallback
buckets. -/
def probeBound (n d : Nat) : Nat := (4 * d + 10) * (2 * d) + 5 * baseTwoLoglogCeiling n

namespace FunnelShape

theorem fromSlots_sizes {n : Nat} {r : ReserveFraction} {s : FunnelShape} (h : fromSlots n r = .ok s) (hn : n ≠ 0) :
    s.levels.length = 4 * r.exponent + 10 ∧ s.beta = 2 * r.exponent ∧ s.loglogCeiling = baseTwoLoglogCeiling n ∧
      s.fallbackBucketWidth = 2 * baseTwoLoglogCeiling n := by
  obtain ⟨hsmall, hsize, hd, hlength, plan, hplan, hfrom⟩ := fromSlots_plan h hn
  have halpha : 4 * r.exponent + 10 ≤ usizeMax := by
    have := r.bounded
    unfold usizeMax
    omega
  obtain ⟨⟨-, -, hbeta, hloglog, hwidth⟩, -⟩ := funnelPlan_spec hsmall hsize hd halpha hplan
  rw [fromPlan] at hfrom
  obtain ⟨⟨levels, primaryOffset⟩, -, hfrom⟩ := bind_ok hfrom
  obtain ⟨primaryRange, -, hfrom⟩ := bind_ok hfrom
  obtain ⟨fallbackOffset, -, hfrom⟩ := bind_ok hfrom
  obtain ⟨stop, -, hfrom⟩ := bind_ok hfrom
  dsimp only at hfrom
  split at hfrom
  · cases hfrom
  split at hfrom
  · cases hfrom
  obtain ⟨fallbackRange, -, hfrom⟩ := bind_ok hfrom
  cases hfrom
  exact ⟨hlength, hbeta, hloglog, hwidth⟩

end FunnelShape

namespace FunnelTable

variable {W K V : Type} {group : GroupBackend} {u : User W K V} {t : FunnelTable K V} {m : W → Nat} {key : K}
  {x : UInt64}

/-- What a search may compare: one key a slot that its probe comes past, and every stored key where an entry may be
off its walk. -/
def searchBound (t : FunnelTable K V) : Nat :=
  probeBound t.shape.n t.reserveFraction.exponent + if t.exceptionalPlacement then t.storage.entries.length else 0

section Lengths

variable (t) (probe : PreparedFastFunnelProbe)

theorem length_ordinaryPart (level : LevelShape) : (t.ordinaryPart probe level).length ≤ max 1 t.shape.beta := by
  unfold ordinaryPart
  split
  · exact Nat.le_max_left ..
  · rw [List.length_map, List.length_range']
    exact Nat.le_max_right ..

theorem length_fallbackPart : (t.fallbackPart probe).length ≤ max 1 (2 * t.shape.fallbackBucketWidth) := by
  unfold fallbackPart
  split
  · exact Nat.le_max_left ..
  · split
    · exact Nat.le_max_left ..
    · simp [fallbackSlots, List.length_flatMap, Nat.mul_comm]

theorem length_levels (levels : List LevelShape) :
    (levels.flatMap (t.ordinaryPart probe)).length ≤ levels.length * max 1 t.shape.beta := by
  induction levels with
  | nil => simp
  | cons level levels ih =>
    have := t.length_ordinaryPart probe level
    rw [List.flatMap_cons, List.length_append, List.length_cons, Nat.add_one_mul]
    omega

end Lengths

theorem length_walk (hw : t.Wf) (hn : t.shape.n ≠ 0) (probe : PreparedFastFunnelProbe) :
    (t.walk probe).length ≤ probeBound t.shape.n t.reserveFraction.exponent := by
  obtain ⟨hlevels, hbeta, hloglog, hwidth⟩ := FunnelShape.fromSlots_sizes hw.shape hn
  obtain ⟨-, -, hd, -⟩ := FunnelShape.fromSlots_plan hw.shape hn
  have hpos := baseTwoLoglogCeiling_pos t.shape.n
  have hordinary := t.length_levels probe t.shape.levels
  have hfallback := t.length_fallbackPart probe
  rw [hlevels, hbeta, Nat.max_eq_right (by omega)] at hordinary
  rw [hwidth] at hfallback
  rw [walk, specialPart, primaryPart, List.length_append, List.length_append, List.length_map, List.length_range,
    hloglog, probeBound]
  omega

theorem length_recordedWalk (hw : t.Wf) (hn : t.shape.n ≠ 0) (probe : PreparedFastFunnelProbe) (levels : UInt16) :
    (t.recordedWalk probe levels).length ≤ probeBound t.shape.n t.reserveFraction.exponent := by
  apply Nat.le_trans _ (length_walk hw hn probe)
  rw [walk_eq]
  exact (List.filter_sublist.flatMap Prod.snd).length_le

section Searches

variable (hm : u.Compares m) (hw : t.Wf)
include hm

theorem compared_inspectKey (slot : Nat) : Compared m t 1 (inspectKey u key slot) := by
  apply Costs.get_bind
  rintro ⟨t', w⟩ rfl
  exact Nat.zero_add 1 ▸ (Costs.expect _ _).bind fun entry => compared_eq hm t' key entry.1

theorem compared_search {kind : Nat → Kind} {w : List (Option Nat)} {n : Nat} (hlength : w.length ≤ n)
    (reuse : Option Nat) : Compared m t n (search kind (inspectKey u key) w reuse) :=
  (costs_search (compared_inspectKey hm) w reuse).mono (Nat.le_trans List.countP_le_length hlength)

include hw

theorem compared_findByFullScan :
    Compared m t t.storage.entries.length (t.findByFullScan (inspectKey u key) (controlFingerprint x)) := by
  rw [findByFullScan, findFrom_eq]
  apply ((costs_search (compared_inspectKey hm) _ none).map _).mono
  rw [Region.length_entries hw.filled, Region.occupied, Region.occupiedFrom, Nat.sub_zero, ← List.range_eq_range',
    List.countP_map, hw.capacity, ← List.countP_eq_length_filter]
  apply List.countP_mono_left
  intro slot _ hcandidate
  exact occ_of_fingerprint (matchKind_candidate.mp (by simpa using hcandidate))

theorem compared_scanIfExceptional {α : Type} (found : Nat → α) (absent : α) :
    Compared m t (if t.exceptionalPlacement then t.storage.entries.length else 0)
      (if t.exceptionalPlacement then do
          match ← t.findByFullScan (inspectKey u key) (controlFingerprint x) with
          | some slot => pure (found slot)
          | none => pure absent
        else pure absent) := by
  apply Costs.ite
  · intro hexceptional
    rw [if_pos hexceptional]
    apply (compared_findByFullScan hm hw).bind_free
    intro answer
    cases answer with
    | some slot => exact Costs.pure _
    | none => exact Costs.pure _
  · intro _
    exact Costs.pure _

theorem compared_find : Compared m t t.searchBound (find group u key x) := by
  apply Costs.get_bind
  rintro ⟨t', w⟩ rfl
  apply Costs.ite
  · intro hpass
    obtain ⟨hn, hknown⟩ := gate_known hw x hpass
    apply Costs.get_bind
    rintro ⟨t, w'⟩ rfl
    dsimp only
    rw [lookupRecordedLevels_eq (isOccupied_controlFingerprint x) hn hknown]
    apply ((compared_search hm (length_recordedWalk hw hn _ _) none).map _).bind
    intro answer
    cases answer with
    | some slot => exact Costs.pure _
    | none =>
      apply Costs.ite
      · intro hexceptional
        rw [if_pos hexceptional]
        exact compared_findByFullScan hm hw
      · intro _
        exact Costs.pure _
  · intro _
    exact Costs.pure _

theorem compared_searchExactMode (hn : t.shape.n ≠ 0) (cleanEpoch : Bool) :
    Compared m t (probeBound t.shape.n t.reserveFraction.exponent)
      (t.searchExactMode group (inspectKey u key) cleanEpoch (prepareFunnel t.probeSeed x) (controlFingerprint x)) := by
  rw [searchExactMode_eq (isOccupied_controlFingerprint x) (hw.laid hn) hn]
  exact (compared_search hm (length_walk hw hn _) none).map _

theorem compared_locate : Compared m t t.searchBound (locate group u key x (controlFingerprint x)) := by
  apply Costs.get_bind
  rintro ⟨t', w⟩ rfl
  apply Costs.ite
  · intro _
    exact Costs.pure _
  · intro hgate
    have hn := (gate_known hw x (by simpa using hgate)).1
    apply (compared_searchExactMode hm hw hn false).bind
    intro found
    cases found with
    | hit slot => exact Costs.pure _
    | vacant slot => exact compared_scanIfExceptional hm hw _ _
    | full => exact compared_scanIfExceptional hm hw _ _
    | rangeFailure => exact compared_scanIfExceptional hm hw _ _

theorem compared_findForEntry : Compared m t t.searchBound (findForEntry group u key x) := by
  apply (compared_locate hm hw).bind_free
  rintro (slot | _ | _ | slot | _ | _)
  all_goals exact Costs.pure _

theorem compared_searchForInsert : Compared m t t.searchBound (searchForInsert group u key x) := by
  apply Costs.get_bind
  rintro ⟨t', w⟩ rfl
  apply Costs.ite
  · intro hpass
    have hn := (gate_known hw x hpass).1
    have hsearch : Compared m t' (probeBound t'.shape.n t'.reserveFraction.exponent)
        (t'.searchExactPreparedForInsert group (inspectKey u key) (prepareFunnel t'.probeSeed x) (controlFingerprint x)) := by
      unfold searchExactPreparedForInsert
      split
      · exact compared_searchExactMode hm hw hn true
      · exact compared_searchExactMode hm hw hn false
    apply hsearch.bind
    intro found
    cases found with
    | hit slot => exact Costs.pure _
    | vacant slot => exact compared_scanIfExceptional hm hw _ _
    | full => exact compared_scanIfExceptional hm hw _ _
    | rangeFailure => exact compared_scanIfExceptional hm hw _ _
  · intro _
    exact Costs.pure _

end Searches

end FunnelTable

end Opthash.Funnel
