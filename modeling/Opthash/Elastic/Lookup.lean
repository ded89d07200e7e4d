import Opthash.Elastic.Updates
import Opthash.Lib.Probing

namespace Opthash.Elastic.ElasticTable

open Exec Probe Probing

variable {W K V : Type} {u : User W K V} {t : ElasticTable K V} {key : K} {x : UInt64} {ledger : Ledger K V}
  {J : W → Prop}

def Matches (u : User W K V) (t : ElasticTable K V) (key : K) (loc : Nat × Nat) (answer : Bool) : Prop :=
  ∃ e, t.Holds loc e ∧ u.Answers key e.1 answer

def Refuted (u : User W K V) (t : ElasticTable K V) (key : K) (x : UInt64) : Prop :=
  ∀ loc e, t.Holds loc e → t.Placed True loc x → u.Answers key e.1 false

theorem Holds.unique {loc : Nat × Nat} {e e' : K × V} (h : t.Holds loc e) (h' : t.Holds loc e') : e = e' :=
  Region.Holds.unique h h'

theorem Matches.answers {loc : Nat × Nat} {e : K × V} {answer : Bool} (h : Matches u t key loc answer)
    (he : t.Holds loc e) : u.Answers key e.1 answer := by
  obtain ⟨e', he', hanswer⟩ := h
  rwa [he.unique he']

def Reports (u : User W K V) (t : ElasticTable K V) (key : K) (x : UInt64) : Option (Nat × Nat) → Prop
  | some loc => Matches u t key loc true
  | none => Refuted u t key x

section Walks

variable {σ : Type} (inspect : Nat × Nat → Exec Panic σ Bool) (t)

def Fingerprinted (keyFingerprint : UInt8) (loc : Nat × Nat) : Prop := (t.region loc.1).ctrl loc.2 = keyFingerprint

instance (keyFingerprint : UInt8) : DecidablePred (t.Fingerprinted keyFingerprint) := fun _ =>
  inferInstanceAs (Decidable (_ = _))

def routeTarget (prepared : PreparedElasticKey) (route : PhiRoute) : Option (Nat × Nat) :=
  (routePreparedCounterForUpper prepared.probe route.counterBase route.rangeUpper).map fun slot => (route.level, slot)

def maskedWalk (prepared : PreparedElasticKey) (levelMask : UInt32) (routes : List PhiRoute) :
    List (Option (Nat × Nat)) :=
  (routes.filter fun route => levelMask &&& ((1 : UInt32) <<< UInt32.ofNat route.level) ≠ 0).map
    (routeTarget prepared)

def afterWalk (keyFingerprint : UInt8) : Outcome (Nat × Nat) → Exec Panic σ (Option (Nat × Nat))
  | .hit loc => pure (some loc)
  | .failed => t.findByFullScan inspect keyFingerprint
  | _ => if t.probeHighWater &&& exceptionalPlacementFlag != 0 then t.findByFullScan inspect keyFingerprint
    else pure none

variable {t inspect} {fingerprint : UInt8}

theorem search_matched {loc : Nat × Nat} {w : List (Option (Nat × Nat))} :
    search (matchKind (t.Fingerprinted fingerprint)) inspect (some loc :: w) none = (do
      if ← t.entryIfMatch inspect fingerprint loc.1 loc.2 then pure (.hit loc)
      else search (matchKind (t.Fingerprinted fingerprint)) inspect w none) := search_match _ loc w

theorem findFrom_eq (locs : List (Nat × Nat)) :
    t.findFrom inspect fingerprint locs =
      Outcome.hit? <$> search (matchKind (t.Fingerprinted fingerprint)) inspect (locs.map some) none := by
  induction locs with
  | nil => rfl
  | cons loc locs ih =>
    rw [findFrom, List.map_cons, search_matched, map_bind]
    refine bind_congr fun answer => ?_
    cases answer with
    | true => rfl
    | false => exact ih

theorem findInSchedule_eq (prepared : PreparedElasticKey) (levelMask : UInt32) (routes : List PhiRoute) :
    t.findInSchedule inspect prepared fingerprint levelMask routes =
      search (matchKind (t.Fingerprinted fingerprint)) inspect (maskedWalk prepared levelMask routes) none >>=
        t.afterWalk inspect fingerprint := by
  induction routes with
  | nil => rfl
  | cons route routes ih =>
    rw [findInSchedule]
    by_cases hmask : levelMask &&& ((1 : UInt32) <<< UInt32.ofNat route.level) = 0
    · rw [if_pos hmask, ih, maskedWalk, maskedWalk, List.filter_cons_of_neg (by simpa using hmask)]
    · rw [if_neg hmask, maskedWalk, List.filter_cons_of_pos (by simpa using hmask), List.map_cons, routeTarget]
      cases routePreparedCounterForUpper prepared.probe route.counterBase route.rangeUpper with
      | none => rfl
      | some slot =>
        rw [Option.map_some, search_matched, bind_assoc]
        refine bind_congr fun answer => ?_
        cases answer with
        | true => rfl
        | false => exact ih

end Walks

theorem occ_of_fingerprinted {loc : Nat × Nat} (h : t.Fingerprinted (controlFingerprint x) loc) :
    (t.region loc.1).Occ loc.2 := by
  unfold Region.Occ
  rw [(h : (t.region loc.1).ctrl loc.2 = controlFingerprint x)]
  exact isOccupied_controlFingerprint x

theorem wp_inspectKey (hw : t.Wf) (hJ : u.EqStable J) {loc : Nat × Nat}
    (hslot : loc.2 < (t.region loc.1).capacity) (ho : (t.region loc.1).Occ loc.2)
    {s : ElasticTable K V × World W K V} (hs : Looking t ledger J s) :
    wp (inspectKey u key loc) (fun b s' => Looking t ledger J s' ∧ Matches u t key loc b) (LookupPanic u t ledger) s := by
  obtain ⟨t', w⟩ := s
  obtain rfl : t' = t := hs.table
  obtain ⟨e, he⟩ := hw.holds (mem_occupied.mpr ⟨hslot, ho⟩)
  rw [inspectKey, wp_bind, wp_get, wp_bind, Region.getRef, he.2.2, expect, wp_pure]
  exact wp_mono (wp_compare hJ key e.1 hs) (fun b _ h => ⟨h.1, e, he, h.2⟩) (fun _ _ => id)

theorem wp_lookup (hw : t.Wf) (hJ : u.EqStable J) {w : List (Option (Nat × Nat))}
    (hslot : ∀ loc, some loc ∈ w → loc.2 < (t.region loc.1).capacity)
    {s : ElasticTable K V × World W K V} (hs : Looking t ledger J s) :
    wp (search (matchKind (t.Fingerprinted (controlFingerprint x))) (inspectKey u key) w none)
      (fun o s' => Looking t ledger J s' ∧
        Found (matchKind (t.Fingerprinted (controlFingerprint x))) (Matches u t key) w none o)
      (LookupPanic u t ledger) s := by
  refine wp_search (fun loc s' hloc hc hs' => ?_) hs
  exact wp_inspectKey hw hJ (hslot loc hloc) (occ_of_fingerprinted (matchKind_candidate.mp hc)) hs'

theorem wp_findByFullScan (hw : t.Wf) (hJ : u.EqStable J) {s : ElasticTable K V × World W K V}
    (hs : Looking t ledger J s) :
    wp (t.findByFullScan (inspectKey u key) (controlFingerprint x))
      (fun r s' => Looking t ledger J s' ∧ Reports u t key x r) (LookupPanic u t ledger) s := by
  have hmem : ∀ loc, some loc ∈ t.locations.map some ↔
      loc.1 < t.levels.length ∧ loc.2 < (t.region loc.1).capacity := by
    intro loc
    simp [locations, Prod.ext_iff]
  rw [findByFullScan, findFrom_eq, wp_map]
  refine wp_mono (wp_lookup hw hJ (fun loc hloc => ((hmem loc).mp hloc).2) hs) ?_ (fun _ _ => id)
  rintro o s' ⟨hs', hfound⟩
  refine ⟨hs', ?_⟩
  have hmissed : Missed (matchKind (t.Fingerprinted (controlFingerprint x))) (Matches u t key)
      (t.locations.map some) → Refuted u t key x := by
    intro hm loc e he hp
    refine (hm.of_mem (by simp) ?_ hp.fingerprint).answers he
    exact (hmem loc).mpr ⟨he.level_lt, he.1⟩
  cases o with
  | hit loc => exact hfound.2.2
  | vacant loc => exact hmissed hfound.1
  | failed => exact hmissed hfound.1
  | exhausted => exact hmissed hfound.1

section Schedule

variable {level j : Nat}

theorem routeIn_level (hl : level < 32) (hj : j ≤ 383) : (t.routeIn level j).level = level :=
  elasticCounterLevel_base hl (by omega)

theorem routeTarget_routeIn (hl : level < 32) (hj : j ≤ 383) :
    routeTarget (.new x) (t.routeIn level j) = (t.probeSlot x level j).map fun slot => (level, slot) := by
  rw [routeTarget, routeIn_level hl hj]
  rfl

theorem Wf.probe_le (hw : t.Wf) (h : phi (level + 1) j ≤ t.priorHighWater.toNat) : j ≤ 383 :=
  probe_le_of_phi_le (Nat.succ_pos level) (Nat.le_trans h hw.highWater)

theorem slot_of_mem_maskedWalk (hw : t.Wf) {levelMask : UInt32} {loc : Nat × Nat}
    (h : some loc ∈ maskedWalk (.new x) levelMask t.probeSchedule) : loc.2 < (t.region loc.1).capacity := by
  obtain ⟨route, hroute, htarget⟩ := List.mem_map.mp h
  obtain ⟨level, j, hl, -, hphi, -, rfl⟩ := (hw.schedule.mem route).mp (List.mem_filter.mp hroute).1
  rw [routeTarget_routeIn (Nat.lt_of_lt_of_le hl hw.levels) (hw.probe_le hphi)] at htarget
  obtain ⟨slot, hslot, rfl⟩ := Option.map_eq_some_iff.mp htarget
  exact probeSlot_lt hw hslot

theorem mem_maskedWalk (hw : t.Wf) {loc : Nat × Nat} (hrecorded : t.Recorded loc x) (hl : loc.1 < t.levels.length)
    (hj : 0 < j) (hphi : phi (loc.1 + 1) j ≤ t.priorHighWater.toNat) (hdirect : ¬Direct loc.1 j)
    (hslot : t.probeSlot x loc.1 j = some loc.2) :
    some loc ∈ maskedWalk (.new x) (t.routeFilter (.new x)).expandedLevelMask t.probeSchedule := by
  have hl32 := Nat.lt_of_lt_of_le hl hw.levels
  have hj383 := hw.probe_le hphi
  refine List.mem_map.mpr ⟨t.routeIn loc.1 j, List.mem_filter.mpr ⟨?_, ?_⟩, ?_⟩
  · exact (hw.schedule.mem _).mpr ⟨loc.1, j, hl, hj, hphi, hdirect, rfl⟩
  · rw [routeIn_level hl32 hj383, routeFilter, if_neg hrecorded.1]
    exact decide_eq_true (expandedLevelMask_and hl32 hrecorded.2.2)
  · rw [routeTarget_routeIn hl32 hj383, hslot, Option.map_some]

theorem routeFilter_of_recorded {loc : Nat × Nat} (h : t.Recorded loc x) :
    (t.routeFilter (.new x)).maybePresent = true := by
  rw [routeFilter, if_neg h.1]
  exact beq_iff_eq.mpr h.2.1

end Schedule

theorem refuted_of_entries_nil (h : t.entries = []) : Refuted u t key x := by
  intro loc e he
  have := mem_entries.mpr ⟨loc, he⟩
  rw [h] at this
  cases this

theorem wp_entryIfMatch (hw : t.Wf) (hJ : u.EqStable J) {loc : Nat × Nat} (hslot : loc.2 < (t.region loc.1).capacity)
    {s : ElasticTable K V × World W K V} (hs : Looking t ledger J s) :
    wp (t.entryIfMatch (inspectKey u key) (controlFingerprint x) loc.1 loc.2)
      (fun b s' => Looking t ledger J s' ∧
        (t.Fingerprinted (controlFingerprint x) loc → Matches u t key loc b) ∧
        (b = true → Matches u t key loc true)) (LookupPanic u t ledger) s := by
  rw [entryIfMatch, wp_ite]
  refine ⟨fun hc => ?_, fun hc => ⟨hs, fun h => absurd h hc, fun h => by cases h⟩⟩
  refine wp_mono (@wp_inspectKey _ _ _ u t key ledger J hw hJ loc hslot (occ_of_fingerprinted hc) s hs) ?_
    (fun _ _ => id)
  exact fun b s' h => ⟨h.1, fun _ => h.2, fun hb => hb ▸ h.2⟩

theorem refuted_of_missed (hw : t.Wf) {h11Slot : Nat} (hdirect : t.probeSlot x 0 1 = some h11Slot)
    (hmatch : t.Fingerprinted (controlFingerprint x) (0, h11Slot) → Matches u t key (0, h11Slot) false)
    (hexc : t.exceptional = false)
    (hwalk : (t.routeFilter (.new x)).maybePresent = true → ∀ loc,
      some loc ∈ maskedWalk (.new x) (t.routeFilter (.new x)).expandedLevelMask t.probeSchedule →
      t.Fingerprinted (controlFingerprint x) loc → Matches u t key loc false) : Refuted u t key x := by
  intro loc e he hp
  obtain ⟨j, hj, hvisits, hslot⟩ := hp.reachable.resolve_left (by simp [hexc])
  have hloc : Matches u t key loc false := by
    by_cases hd : Direct loc.1 j
    · have heq : loc = (0, h11Slot) := by
        rw [hd.1, hd.2, hdirect] at hslot
        exact Prod.ext hd.1 (Option.some.inj hslot).symm
      rw [heq]
      exact hmatch (heq ▸ hp.fingerprint)
    · exact hwalk (routeFilter_of_recorded (hp.recorded trivial)) loc
        (mem_maskedWalk hw (hp.recorded trivial) he.level_lt hj (hvisits.resolve_left hd) hd hslot) hp.fingerprint
  exact hloc.answers he

theorem refuted_of_absent (h : (t.routeFilter (.new x)).maybePresent = false) : Refuted u t key x := by
  intro loc e _ hp
  rw [routeFilter_of_recorded (hp.recorded trivial)] at h
  cases h

theorem wp_findByExactSchedule (hw : t.Wf) (hJ : u.EqStable J) {s : ElasticTable K V × World W K V}
    (hs : Looking t ledger J s) :
    wp (t.findByExactSchedule (inspectKey u key) (.new x) (controlFingerprint x))
      (fun r s' => Looking t ledger J s' ∧ Reports u t key x r) (LookupPanic u t ledger) s := by
  rw [findByExactSchedule, wp_ite]
  refine ⟨fun hempty => ⟨hs, refuted_of_entries_nil ?_⟩, fun _ => ?_⟩
  · rcases hempty with hlen | hlevels
    · exact List.eq_nil_of_length_eq_zero (Nat.eq_zero_of_le_zero (hlen ▸ hw.fits))
    · rw [entries, hlevels]
      rfl
  cases hfirst : routePreparedCounterForUpper (PreparedElasticKey.new x).probe h11CounterBase (t.region 0).capacity with
  | none => exact wp_findByFullScan hw hJ hs
  | some h11Slot =>
    have hdirect : t.probeSlot x 0 1 = some h11Slot := hfirst
    dsimp only
    rw [wp_bind]
    have hentry := @wp_entryIfMatch _ _ _ u t key x ledger J hw hJ (0, h11Slot) (probeSlot_lt hw hdirect) s hs
    refine wp_mono hentry ?_ (fun _ _ => id)
    rintro answer s' ⟨hs', hmatch, hhit⟩
    cases answer with
    | true => exact ⟨hs', hhit rfl⟩
    | false =>
      simp only [Bool.false_eq_true, if_false, wp_ite]
      refine ⟨fun habsent => ⟨hs', refuted_of_absent (by simpa using habsent)⟩, fun _ => ?_⟩
      rw [findInSchedule_eq, wp_bind]
      refine wp_mono (wp_lookup hw hJ (fun loc hloc => slot_of_mem_maskedWalk hw hloc) hs') ?_ (fun _ _ => id)
      rintro o s'' ⟨hs'', hfound⟩
      have hrest : o = .exhausted → wp (if t.probeHighWater &&& exceptionalPlacementFlag != 0 then
            t.findByFullScan (inspectKey u key) (controlFingerprint x) else pure none)
          (fun r s' => Looking t ledger J s' ∧ Reports u t key x r) (LookupPanic u t ledger) s'' := by
        rintro rfl
        rw [wp_ite]
        refine ⟨fun _ => wp_findByFullScan hw hJ hs'', fun hexc => ⟨hs'', ?_⟩⟩
        exact refuted_of_missed hw hdirect hmatch (by simpa [exceptional] using hexc) fun _ loc hloc hc =>
          hfound.1.of_mem (hfound.2.2 rfl) hloc hc
      cases o with
      | hit loc => exact ⟨hs'', hfound.2.2⟩
      | vacant loc =>
        have hnone : firstFree (fun l => matchKind (t.Fingerprinted (controlFingerprint x)) l = .empty ∨
            matchKind (t.Fingerprinted (controlFingerprint x)) l = .deleted)
            (maskedWalk (.new x) (t.routeFilter (.new x)).expandedLevelMask t.probeSchedule) = some loc :=
          hfound.2.1.symm
        simpa using firstFree_free hnone
      | failed => exact wp_findByFullScan hw hJ hs''
      | exhausted => exact hrest rfl

theorem wp_find (hw : t.Wf) (hJ : u.EqStable J) {s : ElasticTable K V × World W K V} (hs : Looking t ledger J s) :
    wp (find u key x) (fun r s' => Looking t ledger J s' ∧ Reports u t key x r) (LookupPanic u t ledger) s := by
  obtain ⟨t', w⟩ := s
  obtain rfl : t' = t := hs.table
  rw [find, wp_bind, wp_get]
  exact wp_findByExactSchedule hw hJ hs

end Opthash.Elastic.ElasticTable
