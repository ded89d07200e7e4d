import Opthash.Backends
import Opthash.Elastic.Settle
import Opthash.Raw.Ownership

namespace Opthash.Elastic

open Exec ElasticTable Ledger

variable {W K V : Type} {group : GroupBackend} {u : User W K V} {q : Prop} {t t' : ElasticTable K V} {κ : K ⊕ V → Nat}
  {w : World W K V}

namespace ElasticTable

section Scan

variable {scan : ElasticScan} {loc : Nat × Nat} {rest : List (Nat × Nat)}

theorem pending_new (level : Nat) : t.pending group ⟨level, .new group⟩ =
    (List.range' level (t.levels.length - level)).flatMap t.levelLocs := by
  rw [pending, OccupiedIndices.pending_new]
  dsimp only
  rcases Nat.lt_or_ge level t.levels.length with hlt | hge
  · have hsplit : t.levels.length - level = t.levels.length - (level + 1) + 1 := by omega
    rw [hsplit, List.range'_succ, List.flatMap_cons]
    rfl
  · have hnone : t.levels.length - level = 0 := by omega
    have hnone' : t.levels.length - (level + 1) = 0 := by omega
    rw [hnone, hnone', region_of_ge hge]
    rfl

theorem scanning_scan : (reading group).Scanning t (ElasticTable.scan group) t.occupied := by
  refine ⟨OccupiedIndices.valid_new, .inr rfl, ?_⟩
  rw [ElasticTable.scan, pending_new, Nat.sub_zero, ← List.range_eq_range']
  rfl

/-- The slots a scan does not come back to. -/
def ElasticScan.Passed (group : GroupBackend) (scan : ElasticScan) (loc : Nat × Nat) : Prop :=
  loc.1 < scan.levelIdx ∨ loc.1 = scan.levelIdx ∧ loc.2 < scan.slots.next group

theorem levelLocs_congr {level : Nat} (hcap : (t'.region level).capacity = (t.region level).capacity)
    (hocc : ∀ slot, (t'.region level).Occ slot = (t.region level).Occ slot) : t'.levelLocs level = t.levelLocs level := by
  rw [levelLocs, levelLocs, Region.occupied, Region.occupied, Region.occupiedFrom_congr _ hcap fun i _ => hocc i]

theorem scanning_congr {locs : List (Nat × Nat)} (hcaps : t'.capacities = t.capacities)
    (hsame : ∀ loc, ¬scan.Passed group loc → (t'.region loc.1).Occ loc.2 = (t.region loc.1).Occ loc.2)
    (h : (reading group).Scanning t scan locs) : (reading group).Scanning t' scan locs := by
  obtain ⟨hvalid, hlevel, rfl⟩ := h
  have hlength := length_levels_congr hcaps
  refine ⟨hvalid, hlength ▸ hlevel, ?_⟩
  have hnow : scan.slots.pending group (t'.region scan.levelIdx) = scan.slots.pending group (t.region scan.levelIdx) := by
    refine OccupiedIndices.pending_congr (capacity_congr hcaps _) fun i hi => hsame (scan.levelIdx, i) ?_
    rintro (hlt | ⟨-, hlt⟩)
    · exact Nat.lt_irrefl _ hlt
    · exact Nat.not_lt_of_le hi hlt
  have hlater : (List.range' (scan.levelIdx + 1) (t.levels.length - (scan.levelIdx + 1))).flatMap t'.levelLocs =
      (List.range' (scan.levelIdx + 1) (t.levels.length - (scan.levelIdx + 1))).flatMap t.levelLocs := by
    refine List.flatMap_congr fun level hlevel => ?_
    have hlater := (List.mem_range'_1.mp hlevel).1
    refine levelLocs_congr (capacity_congr hcaps _) fun slot => hsame (level, slot) ?_
    rintro (hlt | ⟨heq, -⟩)
    · exact Nat.lt_asymm hlt hlater
    · exact Nat.ne_of_gt hlater heq
  rw [pending, pending, hlength, hnow, hlater]

theorem scanNextFrom_spec (hr : ∀ level, (t.region level).Readable group false) (fuel : Nat)
    (hvalid : scan.slots.Valid group) (hlevel : scan.levelIdx < t.levels.length ∨ scan.slots = .new group)
    (hfuel : t.levels.length - scan.levelIdx + 1 ≤ fuel) :
    (scanNextFrom group t fuel scan).1 = (t.pending group scan).head? ∧
      (reading group).Scanning t (scanNextFrom group t fuel scan).2 (t.pending group scan).tail ∧
      ∀ loc, (scanNextFrom group t fuel scan).1 = some loc ∨ scan.Passed group loc →
        (scanNextFrom group t fuel scan).2.Passed group loc := by
  induction fuel generalizing scan with
  | zero => omega
  | succ fuel ih =>
    rw [scanNextFrom]
    rcases Nat.lt_or_ge scan.levelIdx t.levels.length with hlt | hge
    · obtain ⟨l, -, hl, hregion⟩ := level_of_lt hlt
      rw [hl]
      dsimp only
      rw [← hregion]
      obtain ⟨hhead, htail, hvalid', hslot⟩ := OccupiedIndices.step_spec (hr scan.levelIdx) hvalid
      have hnext : scan.slots.next group ≤
          (OccupiedIndices.step group false (t.region scan.levelIdx) scan.slots).2.next group :=
        OccupiedIndices.next_le_step (hr scan.levelIdx)
      generalize OccupiedIndices.step group false (t.region scan.levelIdx) scan.slots = result
        at hhead htail hvalid' hslot hnext
      obtain ⟨yielded, slots⟩ := result
      cases hpending : scan.slots.pending group (t.region scan.levelIdx) with
      | nil =>
        rw [hpending] at hhead
        obtain rfl : yielded = none := hhead
        have hnext : t.pending group scan = t.pending group ⟨scan.levelIdx + 1, .new group⟩ := by
          rw [pending_new, pending, hpending]
          rfl
        rw [hnext]
        obtain ⟨hfound, hrest, hpassed⟩ := @ih ⟨scan.levelIdx + 1, .new group⟩ OccupiedIndices.valid_new (.inr rfl)
          (by dsimp only; omega)
        refine ⟨hfound, hrest, fun loc hloc => hpassed loc (hloc.imp id fun hloc => .inl ?_)⟩
        rcases hloc with hlt | ⟨heq, -⟩
        · exact Nat.lt_succ_of_lt hlt
        · exact Nat.lt_succ_of_le (Nat.le_of_eq heq)
      | cons slot pendingSlots =>
        rw [hpending] at hhead htail
        obtain rfl : yielded = some slot := hhead
        dsimp only at htail hvalid' hslot hnext ⊢
        rw [List.tail_cons] at htail
        have hall : t.pending group scan = (scan.levelIdx, slot) :: t.pending group { scan with slots } := by
          rw [pending, pending, hpending, htail]
          rfl
        rw [hall]
        refine ⟨rfl, ⟨hvalid', .inl hlt, rfl⟩, ?_⟩
        rintro loc (hyield | hlt | ⟨heq, hlt⟩)
        · obtain rfl := Option.some.inj hyield
          exact .inr ⟨rfl, hslot slot rfl⟩
        · exact .inl hlt
        · exact .inr ⟨heq, Nat.lt_of_lt_of_le hlt hnext⟩
    · rw [List.getElem?_eq_none hge]
      have hnew : scan.slots = .new group := hlevel.resolve_left (by omega)
      have hnil : t.pending group scan = [] := by
        have hscan : scan = ⟨scan.levelIdx, .new group⟩ := by rw [← hnew]
        have hnone : t.levels.length - scan.levelIdx = 0 := by omega
        rw [hscan, pending_new, hnone]
        rfl
      rw [hnil]
      refine ⟨rfl, ⟨hvalid, hlevel, hnil⟩, ?_⟩
      rintro loc (hnone | hpassed)
      · cases hnone
      · exact hpassed

theorem scanNext_spec {locs : List (Nat × Nat)} (hr : ∀ level, (t.region level).Readable group false)
    (h : (reading group).Scanning t scan locs) :
    (t.scanNext group scan).1 = locs.head? ∧ (reading group).Scanning t (t.scanNext group scan).2 locs.tail ∧
      ∀ loc, (t.scanNext group scan).1 = some loc ∨ scan.Passed group loc →
        (t.scanNext group scan).2.Passed group loc := by
  obtain ⟨hvalid, hlevel, rfl⟩ := h
  exact scanNextFrom_spec hr (t.levels.length + 1) hvalid hlevel (by omega)

theorem scanNext_nil (hw : t.Wf) (h : (reading group).Scanning t scan []) :
    ∃ scan', t.scanNext group scan = (none, scan') ∧ (reading group).Scanning t scan' [] := by
  obtain ⟨hhead, htail, -⟩ := scanNext_spec (fun level => (hw.scannable level).readable) h
  exact ⟨_, Prod.ext hhead rfl, htail⟩

theorem scanNext_cons (hw : t.Wf) (h : (reading group).Scanning t scan (loc :: rest)) :
    ∃ scan', t.scanNext group scan = (some loc, scan') ∧
      ∀ t', t'.Ready → (reading group).Undisturbed t loc t' → (reading group).Scanning t' scan' rest := by
  obtain ⟨hhead, htail, hpassed⟩ := scanNext_spec (fun level => (hw.scannable level).readable) h
  refine ⟨_, Prod.ext hhead rfl, ?_⟩
  rintro t' - ⟨hcaps, -, hothers⟩
  refine scanning_congr hcaps (fun loc' hloc' => (hothers loc' ?_).1) htail
  rintro rfl
  exact hloc' (hpassed loc' (.inl hhead))

end Scan

section Clear

variable {level : Nat}

/-- A table from which entries were moved out, all of them off the levels a clear is done with. -/
structure Draining (u : User W K V) (group : GroupBackend) (t : ElasticTable K V) (done : List Nat)
    (taken : List (K × V)) (t' : ElasticTable K V) : Prop where
  keeps : (reading group).Keeps u t t'
  capacities : t'.capacities = t.capacities
  maxInsertions : t'.maxInsertions = t.maxInsertions
  entries : t.entries.Perm (taken ++ t'.entries)
  done : ∀ level ∈ done, (t'.region level).entries = [] ∧ (t'.region level).tombstoneCount = 0

theorem region_drainSlot (level slot : Nat) (t : ElasticTable K V) :
    (t.drainSlot (level, slot)).region level = (t.region level).setControl slot ctrlEmpty := by
  rcases Nat.lt_or_ge level t.levels.length with hlt | hge
  · obtain ⟨l, -, hl, hr⟩ := level_of_lt hlt
    have hmod : (t.drainSlot (level, slot)).levels = t.levels.modify level fun l => l.emptySlot slot := rfl
    rw [region_modify hl hmod, if_pos rfl, hr]
    rfl
  · have hempty : (Region.empty 0 : Region (K × V)).setControl slot ctrlEmpty = .empty 0 := by
      rw [Region.setControl, Region.empty, Function.update_eq_self]
    rw [region_of_ge hge, hempty, region_of_ge]
    rw [length_levels_congr taken_drainSlot.plan.capacities]
    exact hge

theorem Draining.take {done : List Nat} {taken : List (K × V)} {slot : Nat} {e : K × V} (hlevel : level ∉ done)
    (h : Draining u group t done taken t') (he : (t'.region level).Holds slot e) :
    Draining u group t done (taken ++ [e]) (t'.drainSlot (level, slot)) := by
  have hready : t'.Ready := h.keeps.wf
  have hholds : t'.Holds (level, slot) e := he
  have hlen := len_pos hready.toWf hholds
  have htaken := @taken_drainSlot _ _ t' (level, slot)
  have hpred : (t'.drainSlot (level, slot)).len = t'.len - 1 := rfl
  have hwf := htaken.wf hready.toWf hholds (by omega) (by omega)
  refine ⟨h.keeps.trans ⟨htaken.plan.ready hready hwf, counted_drainSlot hholds, htaken.sound hholds⟩,
    htaken.plan.capacities.trans h.capacities, htaken.plan.maxInsertions.trans h.maxInsertions, ?_,
    fun level' hlevel' => ?_⟩
  · rw [List.append_assoc]
    exact h.entries.trans ((htaken.entries hholds).append_left taken)
  · rw [htaken.region_eq hholds, if_neg]
    · exact h.done level' hlevel'
    · rintro rfl
      exact hlevel hlevel'

theorem samePlan_finishDrain : t.SamePlan (t.modifyLevel level Level.finishDrain) :=
  ⟨capacities_modify (f := Level.finishDrain) (fun _ => rfl) rfl, rfl, rfl, rfl, rfl, rfl, rfl⟩

theorem region_finishDrain (hl : level < t.levels.length) (level' : Nat) :
    (t.modifyLevel level Level.finishDrain).region level' =
      if level' = level then (t.region level).clearAllControls else t.region level' := by
  obtain ⟨l, -, hl, hr⟩ := level_of_lt hl
  have hmod : (t.modifyLevel level Level.finishDrain).levels = t.levels.modify level Level.finishDrain := rfl
  rw [region_modify hl hmod, hr]
  rfl

theorem Draining.finish {done : List Nat} {taken : List (K × V)} (hl : level < t.levels.length)
    (h : Draining u group t done taken t') (hnil : (t'.region level).entries = []) :
    Draining u group t (done ++ [level]) taken (t'.modifyLevel level Level.finishDrain) := by
  have hready : t'.Ready := h.keeps.wf
  rw [← length_levels_congr h.capacities] at hl
  obtain ⟨l, hmem, hget, hr⟩ := level_of_lt hl
  have hlevels : (t'.modifyLevel level Level.finishDrain).levels = t'.levels.modify level Level.finishDrain := rfl
  have hentries : t'.entries.Perm (t'.modifyLevel level Level.finishDrain).entries := by
    obtain ⟨rest, hrest, hrest'⟩ := entries_modify hget hlevels
    rw [hr] at hnil
    rw [hnil] at hrest
    exact hrest.trans ((List.Perm.of_eq (by rw [Level.finishDrain, Region.entries_clearAllControls])).trans hrest'.symm)
  -- The entries of the other levels stay where they were.
  have hold : ∀ loc e, (t'.modifyLevel level Level.finishDrain).Holds loc e → t'.Holds loc e ∧
      ((t'.modifyLevel level Level.finishDrain).region loc.1).ctrl loc.2 = (t'.region loc.1).ctrl loc.2 := by
    intro loc e he
    rw [Holds, region_finishDrain hl] at he
    rw [region_finishDrain hl]
    split at he
    · have := Region.mem_entries.mpr ⟨loc.2, he⟩
      rw [Region.entries_clearAllControls] at this
      cases this
    · rename_i hother
      exact ⟨he, by rw [if_neg hother]⟩
  have hwf : (t'.modifyLevel level Level.finishDrain).Wf := by
    apply samePlan_finishDrain.wf hready.toWf
    · exact levels_modify hget hlevels hready.filled Region.filled_clearAllControls
    · rw [← hentries.length_eq]
      exact hready.fits
    · exact hready.limit
    · refine samePlan_finishDrain.lodged hready.toWf fun loc e he => ?_
      obtain ⟨he', hctrl⟩ := hold loc e he
      exact ⟨⟨e, he'⟩, hctrl⟩
  have hcounted : t'.Counted → (t'.modifyLevel level Level.finishDrain).Counted := by
    refine fun hc => ⟨hc.len.trans hentries.length_eq, ?_⟩
    refine levels_modify hget hlevels hc.levels ?_
    rintro ⟨hlen, -⟩
    rw [hr] at hnil
    rw [hnil] at hlen
    refine ⟨?_, Region.tombstoneCount_clearAllControls.symm⟩
    rw [Level.finishDrain, Region.entries_clearAllControls]
    exact hlen
  have hsound : ∀ {q : Prop}, t'.Sound u q → (t'.modifyLevel level Level.finishDrain).Sound u q := by
    intro q hs
    refine hs.mono (samePlan_finishDrain.toExtends fun _ => id) fun loc e he => ?_
    obtain ⟨he', hctrl⟩ := hold loc e he
    exact ⟨e, rfl, he', hctrl⟩
  refine ⟨h.keeps.trans ⟨samePlan_finishDrain.ready hready hwf, hcounted, hsound⟩,
    samePlan_finishDrain.capacities.trans h.capacities, h.maxInsertions, h.entries.trans (hentries.append_left taken),
    fun level' hlevel' => ?_⟩
  rw [region_finishDrain hl]
  split
  · exact ⟨Region.entries_clearAllControls, Region.tombstoneCount_clearAllControls⟩
  · rename_i hother
    rcases List.mem_append.mp hlevel' with hlevel' | hlevel'
    · exact h.done level' hlevel'
    · exact absurd (List.mem_singleton.mp hlevel') hother

theorem wp_drainReset {done : List Nat} {taken : List (K × V)} {w₀ : World W K V} (hl : level < t.levels.length)
    (hlevel : level ∉ done) (h : Draining u group t done taken t')
    (hdropped : User.Dropped κ (weighEntries κ taken) w₀ w) :
    wp (drainReset group u level)
      (fun _ s => ∃ taken, Draining u group t (done ++ [level]) taken s.1 ∧
        User.Dropped κ (weighEntries κ taken) w₀ s.2)
      (fun p s => User.Burst u p ∧ (p ≠ .abort → ∃ taken, Draining u group t done taken s.1 ∧
        User.Dropped κ (weighEntries κ taken) w₀ s.2)) (t', w) := by
  rw [drainReset, wp_bind]
  refine wp_mono (wp_takeOccupied (κ := κ) (fun t : ElasticTable K V => t.region level)
    (fun slot t => t.drainSlot (level, slot)) (Draining u group t done) (fun _ => rfl) isOccupied_ctrlEmpty
    (fun slot t => region_drainSlot level slot t) (fun _ t' h => ?_) (fun _ _ _ _ h he => h.take hlevel he) h hdropped)
    ?_ (fun _ _ => id)
  · have hready : t'.Ready := h.keeps.wf
    exact ⟨hready.scannable level, filled_region hready.toWf level⟩
  · rintro _ s ⟨taken', hdraining, hdropped', hnil⟩
    rw [wp_modify]
    exact ⟨taken', hdraining.finish hl hnil, hdropped'⟩

theorem wp_clear (hr : t.Ready) :
    wp (clear group u)
      (fun _ s => (reading group).Steady u t s.1 ∧ s.1.entries = [] ∧ (∀ l ∈ s.1.levels, l.region.Blank) ∧
        Drained u κ (weighEntries κ t.entries) w s.2)
      (fun e s => User.Burst u e ∧ (e ≠ .abort → (reading group).Keeps u t s.1 ∧ s.1.maxInsertions = t.maxInsertions ∧
        ∃ taken, t.entries.Perm (taken ++ s.1.entries) ∧ User.Dropped κ (weighEntries κ taken) w s.2)) (t, w) := by
  rw [clear, wp_bind, wp_get]
  dsimp only
  rw [wp_bind]
  apply wp_forM (fun rest s => ∃ done, List.range t.levels.length = done ++ rest ∧
    ∃ taken, Draining u group t done taken s.1 ∧ User.Dropped κ (weighEntries κ taken) w s.2)
  · rintro level rest ⟨t', w'⟩ ⟨done, hall, taken, hdraining, hdropped⟩
    have hlevel : level < t.levels.length := by
      rw [← List.mem_range, hall]
      exact List.mem_append_right _ (List.mem_cons_self ..)
    have hfresh : level ∉ done := by
      have hnodup := List.nodup_range (n := t.levels.length)
      rw [hall] at hnodup
      exact fun h => (List.nodup_append.mp hnodup).2.2 level h level (List.mem_cons_self ..) rfl
    refine wp_mono (wp_drainReset hlevel hfresh hdraining hdropped) ?_ ?_
    · rintro _ s h
      exact ⟨done ++ [level], by rw [hall, List.append_assoc]; rfl, h⟩
    · rintro p s ⟨hp, hrest⟩
      refine ⟨hp, fun hne => ?_⟩
      obtain ⟨taken', hdraining', hdropped'⟩ := hrest hne
      exact ⟨hdraining'.keeps, hdraining'.maxInsertions, taken', hdraining'.entries, hdropped'⟩
  · rintro ⟨t', w'⟩ ⟨done, hall, taken, hdraining, hdropped⟩
    rw [List.append_nil] at hall
    subst hall
    have hready : t'.Ready := hdraining.keeps.wf
    have hnil : t'.entries = [] := by
      rw [entries_eq, List.flatMap_eq_nil_iff, length_levels_congr hdraining.capacities]
      exact fun level hlevel => (hdraining.done level hlevel).1
    have hzero : ∀ l ∈ t'.levels, l.region.entries = [] ∧ l.region.tombstoneCount = 0 := by
      intro l hl
      obtain ⟨level, hlevel⟩ := List.mem_iff_getElem?.mp hl
      obtain ⟨hlt, -⟩ := List.getElem?_eq_some_iff.mp hlevel
      rw [length_levels_congr hdraining.capacities] at hlt
      have hdone := hdraining.done level (List.mem_range.mpr hlt)
      rwa [region_of_getElem? hlevel] at hdone
    have hclean : t'.Counted → ∀ l ∈ t'.levels, l.tombstones = 0 := fun hc l hl =>
      (hc.levels l hl).2.trans (hzero l hl).2
    have hblank : ∀ l ∈ t'.levels, l.region.Blank := fun l hl =>
      Region.blank_of_vacant (hready.filled l hl) (hzero l hl).1 (hzero l hl).2
    have hperm := hdraining.entries
    dsimp only at hperm hdropped
    rw [hnil, List.append_nil] at hperm
    rw [wp_modify, weighEntries_perm hperm]
    have hkeeps : (reading group).Keeps u t' t'.resetAfterClear := ⟨⟨wf_resetAfterClear hready.toWf hnil, hready.scaled⟩,
      fun hc => ⟨hc.len, hc.levels⟩, fun _ => sound_of_entries_nil hnil⟩
    refine ⟨⟨hdraining.keeps.trans hkeeps, hdraining.maxInsertions, fun hc _ => ?_⟩, hnil, hblank, hdropped.made,
      Nat.le_of_eq hdropped.gone, fun _ => hdropped.gone⟩
    exact .of_clean (hclean (hdraining.keeps.counted hc)) rfl
  · exact ⟨[], rfl, [], ⟨.refl hr, rfl, rfl, .refl _, fun _ h => (List.not_mem_nil h).elim⟩, Gains.refl _⟩

end Clear

section Clone

structure LevelClone (u : User W K V) (src dst : Level K V) : Prop where
  region : ClonedRegion u src.region dst.region
  len : dst.len = src.len
  tombstones : dst.tombstones = src.tombstones

variable {levels : List (Level K V)}

def freshLevels (src : List (Level K V)) : List (Level K V) := src.map fun l => Level.newAt l.region.capacity

theorem freshLevels_spec {src : List (Level K V)} {l : Level K V} (hsmall : ∀ l ∈ src, l.region.capacity ≤ u32Max)
    (hl : l ∈ freshLevels src) : l.region.Scannable false ∧ l.region.Filled ∧ l.region.entries = [] := by
  obtain ⟨m, hm, rfl⟩ := List.mem_map.mp hl
  have hcap := hsmall m hm
  refine ⟨⟨?_, fun h => by cases h⟩, Region.filled_empty, Region.entries_empty⟩
  unfold u32Max at hcap
  rw [Level.newAt, Region.empty]
  dsimp only
  omega

theorem scannable_of_le {r : Region (K × V)} (h : r.capacity ≤ u32Max) : r.Scannable false := by
  refine ⟨?_, fun h => by cases h⟩
  unfold u32Max at h
  omega

theorem wp_cloneLevels {src clones : List (Level K V)} (hsmall : ∀ l ∈ src, l.region.capacity ≤ u32Max)
    (hfilled : ∀ l ∈ src, l.region.Filled) (hclones : ∀ l ∈ clones, l.region.Scannable false ∧ l.region.Filled)
    {w₀ : World W K V} (hgone : w.ledger.gone κ = w₀.ledger.gone κ)
    (hmade : w.ledger.made κ = w₀.ledger.made κ + weighEntries κ (clones.flatMap fun l => l.region.entries)) :
    wp ((src.zipIdx clones.length).forM fun (src, level) => cloneLevel group u src level)
      (fun _ s => ∃ cloned, s.1 = clones ++ cloned ∧ List.Forall₂ (LevelClone u) src cloned ∧
        s.2.ledger.gone κ = w₀.ledger.gone κ ∧
        s.2.ledger.made κ = w₀.ledger.made κ + weighEntries κ (s.1.flatMap fun l => l.region.entries))
      (fun p s => u.Burst p ∧ (∀ l ∈ s.1, l.region.Scannable false ∧ l.region.Filled) ∧ (p ≠ .abort → ∃ n,
        s.2.ledger.gone κ = w₀.ledger.gone κ + n ∧
        s.2.ledger.made κ = w₀.ledger.made κ + n + weighEntries κ (s.1.flatMap fun l => l.region.entries)))
      (clones ++ freshLevels src, w) := by
  induction src generalizing clones w with
  | nil =>
    refine ⟨[], rfl, .nil, hgone, ?_⟩
    rw [freshLevels, List.map_nil, List.append_nil]
    exact hmade
  | cons l src ih =>
    obtain ⟨hcap, hsmall⟩ := List.forall_mem_cons.mp hsmall
    obtain ⟨hf, hfilled⟩ := List.forall_mem_cons.mp hfilled
    have hfresh : freshLevels (l :: src) = Level.newAt l.region.capacity :: freshLevels src := rfl
    have hget : ((clones ++ freshLevels (l :: src))[clones.length]?).elim (.empty 0) Level.region =
        .empty l.region.capacity := by
      rw [hfresh, List.getElem?_append_right (Nat.le_refl _), Nat.sub_self]
      rfl
    have hrest : ∀ r : Region (K × V), ((clones ++ (⟨r, 0, 0⟩ : Level K V) ::
        freshLevels src).flatMap fun l => l.region.entries) =
          (clones.flatMap fun l => l.region.entries) ++ r.entries := by
      intro r
      have hnil : ((freshLevels src).flatMap fun l => l.region.entries) = [] :=
        List.flatMap_eq_nil_iff.mpr fun m hm => (freshLevels_spec hsmall hm).2.2
      rw [List.flatMap_append, List.flatMap_cons, hnil, List.append_nil]
    rw [List.zipIdx_cons, List.forM_eq_forM, List.forM_cons, wp_bind]
    dsimp only
    rw [cloneLevel, wp_bind, wp_zoom]
    dsimp only
    rw [hget]
    refine wp_mono (wp_cloneRegionFrom (κ := κ) (scannable_of_le hcap) hf) ?_ ?_
    · rintro _ ⟨region, w'⟩ ⟨hc, hgone', hmade'⟩
      dsimp only at hc hgone' hmade'
      rw [wp_modify]
      dsimp only
      rw [hfresh, Slots.modify_append, Slots.modify_append]
      have hlevel : LevelClone u l ⟨region, l.len, l.tombstones⟩ := ⟨hc, rfl, rfl⟩
      have hih := @ih w' (clones ++ [⟨region, l.len, l.tombstones⟩]) hsmall hfilled ?_
        (hgone'.trans hgone) ?_
      · rw [List.length_append, List.length_singleton, List.append_assoc] at hih
        refine wp_mono hih ?_ (fun _ _ => id)
        rintro _ s ⟨cloned, hs, hall, hrest⟩
        exact ⟨_ :: cloned, by rw [hs, List.append_assoc]; rfl, .cons hlevel hall, hrest⟩
      · intro m hm
        rcases List.mem_append.mp hm with hm | hm
        · exact hclones m hm
        · obtain rfl := List.mem_singleton.mp hm
          exact ⟨scannable_of_le (by rw [hc.capacity]; exact hcap), hc.filled⟩
      · rw [List.flatMap_append, List.flatMap_singleton, weighEntries_append, hmade', hmade, Nat.add_assoc]
    · rintro p ⟨region, w'⟩ ⟨hp, hscan, hfill, hundone⟩
      dsimp only at hscan hfill hundone ⊢
      rw [hfresh, Slots.modify_append]
      refine ⟨hp, fun m hm => ?_, fun hne => ?_⟩
      · rcases List.mem_append.mp hm with hm | hm
        · exact hclones m hm
        · rcases List.mem_cons.mp hm with rfl | hm
          · exact ⟨hscan, hfill⟩
          · exact ⟨(freshLevels_spec hsmall hm).1, (freshLevels_spec hsmall hm).2.1⟩
      · obtain ⟨n, hgone', hmade'⟩ := (hundone hne).extra
        refine ⟨n, by rw [hgone', hgone], ?_⟩
        change _ = _ + n + weighEntries κ ((clones ++ (⟨region, 0, 0⟩ : Level K V) :: freshLevels src).flatMap _)
        rw [hmade', hmade, hrest, weighEntries_append]
        omega

end Clone

section Cloned

variable {levels : List (Level K V)}

theorem levelClone_region (hall : List.Forall₂ (LevelClone u) t.levels levels) (level : Nat) :
    ClonedRegion u (t.region level) (ElasticTable.region { t with levels } level) := by
  rcases Nat.lt_or_ge level t.levels.length with hlt | hge
  · have hlt' : level < levels.length := hall.length_eq ▸ hlt
    have hclone := hall.get hlt hlt'
    rw [region_of_getElem? (List.getElem?_eq_getElem hlt), region_of_getElem? (t := { t with levels })
      (List.getElem?_eq_getElem hlt')]
    exact hclone.region
  · have hge' : levels.length ≤ level := hall.length_eq ▸ hge
    rw [region_of_ge hge, region_of_ge (t := { t with levels }) hge']
    exact ⟨rfl, fun i => (if_neg (Nat.not_lt_zero i)).symm, Region.filled_empty,
      fun i hi => absurd hi (Nat.not_lt_zero i)⟩

theorem capacities_clone (hall : List.Forall₂ (LevelClone u) t.levels levels) :
    ElasticTable.capacities { t with levels } = t.capacities := by
  unfold capacities
  dsimp only
  generalize t.levels = src at hall
  induction hall with
  | nil => rfl
  | cons hclone _ ih => rw [List.map_cons, List.map_cons, ih, hclone.region.capacity]

theorem entries_clone (hall : List.Forall₂ (LevelClone u) t.levels levels) :
    List.Forall₂ u.Clones t.entries (ElasticTable.entries { t with levels }) := by
  unfold entries
  dsimp only
  generalize t.levels = src at hall
  induction hall with
  | nil => exact .nil
  | cons hclone _ ih =>
    rw [List.flatMap_cons, List.flatMap_cons]
    exact List.rel_append hclone.region.entries ih

theorem samePlan_clone (hall : List.Forall₂ (LevelClone u) t.levels levels) : t.SamePlan { t with levels } :=
  ⟨capacities_clone hall, rfl, rfl, rfl, rfl, rfl, rfl⟩

theorem mem_clone {l : Level K V} (hall : List.Forall₂ (LevelClone u) t.levels levels) (hl : l ∈ levels) :
    ∃ src ∈ t.levels, LevelClone u src l := by
  obtain ⟨level, hlevel⟩ := List.mem_iff_getElem?.mp hl
  obtain ⟨hlt, rfl⟩ := List.getElem?_eq_some_iff.mp hlevel
  have hlt' : level < t.levels.length := hall.length_eq ▸ hlt
  exact ⟨_, List.getElem_mem hlt', hall.get hlt' hlt⟩

theorem ready_clone (hr : t.Ready) (hall : List.Forall₂ (LevelClone u) t.levels levels) :
    ElasticTable.Ready { t with levels } := by
  refine (samePlan_clone hall).ready hr ((samePlan_clone hall).wf hr.toWf ?_ ?_ hr.limit ?_)
  · intro l hl
    obtain ⟨src, -, hclone⟩ := mem_clone hall hl
    exact hclone.region.filled
  · rw [← (entries_clone hall).length_eq]
    exact hr.fits
  · refine (samePlan_clone hall).lodged hr.toWf fun loc e' he' => ?_
    have hregion := levelClone_region hall loc.1
    obtain ⟨e, he, -⟩ := hregion.holds he'
    exact ⟨⟨e, he⟩, (hregion.ctrl loc.2).trans (if_pos he.1)⟩

theorem counted_clone (hall : List.Forall₂ (LevelClone u) t.levels levels) (hc : t.Counted) :
    ElasticTable.Counted { t with levels } where
  len := hc.len.trans (entries_clone hall).length_eq
  levels := by
    intro l hl
    obtain ⟨src, hsrc, hclone⟩ := mem_clone hall hl
    obtain ⟨hlen, htomb⟩ := hc.levels src hsrc
    exact ⟨by rw [hclone.len, hlen, hclone.region.entries.length_eq],
      by rw [hclone.tombstones, htomb, hclone.region.tombstoneCount]⟩

theorem settled_clone (hall : List.Forall₂ (LevelClone u) t.levels levels) (hs : t.Settled group) :
    ElasticTable.Settled group { t with levels } := by
  refine ⟨fun l hl => ?_, hs.stale⟩
  obtain ⟨src, hsrc, hclone⟩ := mem_clone hall hl
  have hclean := hs.levels src hsrc
  rwa [Level.needsCleanup, ← hclone.tombstones, ← hclone.region.capacity] at hclean

theorem sound_clone (hall : List.Forall₂ (LevelClone u) t.levels levels) (hs : t.Sound u q) (hhash : u.ClonesHash) :
    ElasticTable.Sound u q { t with levels } := by
  intro hd loc e' he'
  have hregion := levelClone_region hall loc.1
  obtain ⟨e, he, hk, -⟩ := hregion.holds he'
  obtain ⟨x, hx, hp⟩ := hs hd loc e he
  exact ⟨x, hhash _ _ x hk hx, hp.mono ((samePlan_clone hall).toExtends fun _ => id)
    ((hregion.ctrl loc.2).trans (if_pos he.1))⟩

theorem wp_cloneTable (hr : t.Ready) :
    wp (cloneTable group u t)
      (fun t' w' => t'.Ready ∧ t'.maxInsertions = t.maxInsertions ∧ (t.Counted → t'.Counted) ∧
        (t.Settled group → t'.Settled group) ∧
        (∀ {q : Prop}, t.Sound u q → u.ClonesHash → t'.Sound u q) ∧
        List.Forall₂ u.Clones t.entries t'.entries ∧
        w'.ledger.gone κ = w.ledger.gone κ ∧
        w'.ledger.made κ = w.ledger.made κ + weighEntries κ t'.entries)
      (fun e w' => e.Blamed (¬u.Calm) ∧ (e ≠ .abort → ∃ made,
        w'.ledger.made κ = w.ledger.made κ + made ∧ w'.ledger.gone κ ≤ w.ledger.gone κ + made ∧
        (u.needsDrop = true → w'.ledger.gone κ = w.ledger.gone κ + made))) w := by
  have hsame : ∀ {w' : World W K V}, w'.ledger = w.ledger → ∃ made,
      w'.ledger.made κ = w.ledger.made κ + made ∧ w'.ledger.gone κ ≤ w.ledger.gone κ + made ∧
        (u.needsDrop = true → w'.ledger.gone κ = w.ledger.gone κ + made) :=
    fun h => ⟨0, by rw [h]; rfl, by rw [h]; exact Nat.le_refl _, fun _ => by rw [h]; rfl⟩
  rw [cloneTable, wp_bind, World.wp_call]
  refine wp_mono (User.wp_total (u := u) (fun h => h.cloneBuilder) w.code) ?_
    (fun _ code h => ⟨.user h, fun _ => hsame rfl⟩)
  intro _ code _
  rw [wp_bind]
  refine wp_mono wp_tryProbeSchedule ?_ (fun _ _ => id)
  rintro (e | _) w₁ hl₁
  · exact ⟨.exhausted .alloc, fun _ => hsame hl₁⟩
  have hplan : planBuffer (t.levels.map fun l => l.region.capacity) = .ok t.capacities := by
    unfold planBuffer maxLevels
    rw [if_pos (by rw [List.length_map]; exact hr.levels)]
    rfl
  dsimp only
  rw [wp_bind, wp_liftPanic_ok hplan, wp_bind]
  refine wp_mono wp_tryAllocElasticArena ?_ (fun _ _ => id)
  rintro (e | ⟨levels, membership⟩) w₂ ⟨hl₂, hnew⟩
  · exact ⟨.exhausted .alloc, fun _ => hsame (hl₂.trans hl₁)⟩
  · obtain ⟨rfl, rfl, -⟩ := hnew levels membership rfl
    have hledger : w₂.ledger = w.ledger := hl₂.trans hl₁
    have hfresh : t.capacities.map Level.newAt = freshLevels t.levels := List.map_map ..
    have hcap : ∀ l ∈ t.levels, l.region.capacity ≤ u32Max := fun l hl => hr.small _ (List.mem_map_of_mem hl)
    dsimp only
    rw [wp_bind, wp_withLocal, hfresh]
    apply User.wp_cleanup (u := u)
    · exact fun h _ => ⟨.abort h, fun h => absurd rfl h⟩
    refine wp_mono (@wp_cloneLevels _ _ _ group u κ w₂ t.levels [] hcap hr.filled (fun _ h => by cases h) w₂ rfl rfl) ?_ ?_
    · rintro _ ⟨levels, w₃⟩ ⟨cloned, heq, hall, hgone, hmade⟩
      rw [List.nil_append] at heq
      dsimp only at heq hgone hmade
      subst heq
      have hwords : Membership.wordCount t.capacities.sum = t.membership.words := by rw [hr.slots, hr.words]
      dsimp only
      rw [wp_bind, copyMembershipFrom, MembershipRegion.zeroed, wp_ite]
      refine ⟨fun h => absurd hwords h, fun _ => ?_⟩
      rw [wp_pure, wp_pure]
      dsimp only
      rw [hwords]
      refine ⟨ready_clone hr hall, rfl, counted_clone hall, settled_clone hall, sound_clone hall, entries_clone hall, ?_, ?_⟩
      · rw [hgone, hledger]
      · rw [hmade, hledger]
        rfl
    · rintro p ⟨levels, w₃⟩ ⟨hp, hregions, hundone⟩
      dsimp only at hregions hundone
      refine ⟨fun _ => ⟨.abort hp.2, fun h => absurd rfl h⟩, fun hne => ?_⟩
      obtain ⟨n, hgone, hmade⟩ := hundone hne
      rw [hledger] at hgone hmade
      simp only [wp_bind, wp_get, wp_onSnd]
      have hdrop : ∀ r ∈ levels.map Level.region, r.Scannable false ∧ r.Filled := by
        intro r hr
        obtain ⟨l, hl, rfl⟩ := List.mem_map.mp hr
        exact hregions l hl
      refine wp_mono (wp_dropValues (κ := κ) hdrop) ?_ (fun _ _ h => h.1.2)
      intro _ w₄ hdrained
      rw [List.flatMap_map] at hdrained
      have hle := hdrained.le
      refine ⟨hp.blamed, fun _ => ⟨n + weighEntries κ (levels.flatMap fun l => l.region.entries), ?_, ?_, fun hneeds => ?_⟩⟩
      · rw [hdrained.made, hmade, Nat.add_assoc]
      · rw [hgone] at hle
        rw [← Nat.add_assoc]
        exact hle
      · rw [hdrained.eq hneeds, hgone, Nat.add_assoc]

end Cloned

end ElasticTable

section Contract

theorem growCapacityFor_spec {needed newCapacity : Nat} (hgrow : t.growCapacityFor group needed = some newCapacity) :
    needed ≤ Capacity.maxInsertions newCapacity t.reserveFraction := (Capacity.capacityFor_spec hgrow).1

theorem scaled_growCapacityFor {needed newCapacity : Nat} (hr : t.Ready)
    (hgrow : t.growCapacityFor group needed = some newCapacity) : Scaled newCapacity := by
  obtain ⟨-, doublings, rfl⟩ := Capacity.capacityFor_spec hgrow
  apply Scaled.scale
  rcases max_cases t.totalSlots group.initialCapacity with ⟨h, -⟩ | ⟨h, -⟩
  · rw [h]
    exact hr.scaled
  · rw [h]
    exact scaled_initialCapacity

theorem wp_resize {needed newCapacity : Nat} (hr : t.Ready) (hneeded : t.len ≤ needed)
    (hgrow : t.growCapacityFor group needed = some newCapacity) :
    wp (resizeWithTransition group u newCapacity .explicitResize)
      (fun _ s => (reading group).Refitted u needed t s.1 ∧ s.2.ledger = w.ledger)
      (Refused u t w.ledger) (t, w) := by
  have hfit := growCapacityFor_spec hgrow
  have hscaled := scaled_growCapacityFor hr hgrow
  exact wp_mono (wp_resize_resized hr hscaled (Nat.le_trans hneeded hfit) .explicitResize)
    (fun _ _ h => ⟨h.2.refitted hfit, h.1⟩) (fun _ _ => id)

theorem wp_tryResize {needed newCapacity : Nat} (hr : t.Ready) (hneeded : t.len ≤ needed)
    (hgrow : t.growCapacityFor group needed = some newCapacity) :
    wp (tryResize group u newCapacity)
      (fun r s => (match r with
        | .ok _ => (reading group).Refitted u needed t s.1
        | .error _ => s.1 = t) ∧ s.2.ledger = w.ledger)
      (fun e s => u.Unwound e ∧ s.1 = t ∧ s.2.ledger = w.ledger) (t, w) := by
  have hfit := growCapacityFor_spec hgrow
  rw [tryResize, wp_bind, wp_get]
  dsimp only
  rw [wp_bind]
  rcases ElasticGeometry.forSlots_spec newCapacity t.reserveFraction with hnone | ⟨g, hsome, hg⟩
  · rw [wp_liftPanic_ok hnone]
    exact ⟨rfl, rfl⟩
  · rw [wp_liftPanic_ok hsome]
    have hlimit : t.len ≤ g.maxInsertions := by rw [hg.maxInsertions]; exact Nat.le_trans hneeded hfit
    refine wp_mono (wp_tryResizeTo hr.toWf hg hlimit .explicitResize w) ?_ (fun _ _ => id)
    rintro (e | _) s ⟨hledger, hrebuilt⟩
    · exact ⟨hrebuilt, hledger⟩
    · refine ⟨⟨hrebuilt.rearranged (by rw [hg.totalSlots]; exact scaled_growCapacityFor hr hgrow), ?_,
        .of_clean hrebuilt.clean hrebuilt.stale⟩, hledger⟩
      change needed ≤ s.1.maxInsertions
      rw [hrebuilt.maxInsertions hg, hg.maxInsertions]
      exact hfit

theorem wp_shrinkTo (hr : t.Ready) (minCapacity : Nat) :
    wp (shrinkTo group u minCapacity)
      (fun _ s => (reading group).Rearranged u t s.1 ∧ (t.Settled group → s.1.Settled group) ∧ s.2.ledger = w.ledger)
      (Refused u t w.ledger) (t, w) := by
  simp only [shrinkTo, wp_bind, wp_get, wp_ite]
  constructor
  · rintro ⟨hlen, -⟩
    refine ⟨fun _ => ?_, fun _ => ⟨.refl hr, id, rfl⟩⟩
    exact wp_mono (wp_resize_resized hr (.inl rfl) (by rw [hlen]; exact Nat.zero_le _) .explicitResize)
      (fun _ _ h => ⟨h.2.rearranged, fun _ => h.2.settled, h.1⟩) (fun _ _ => id)
  · intro _
    rw [wp_expect]
    refine ⟨fun newCapacity hcap => ?_, fun _ => ⟨.inr .capacity, rfl, rfl⟩⟩
    obtain ⟨hfit, doublings, rfl⟩ := Capacity.capacityFor_spec hcap
    rw [wp_ite]
    refine ⟨fun _ => ⟨.refl hr, id, rfl⟩, fun _ => ?_⟩
    exact wp_mono (wp_resize_resized hr (scaled_initialCapacity.scale doublings) (by omega) .explicitResize)
      (fun _ _ h => ⟨h.2.rearranged, fun _ => h.2.settled, h.1⟩) (fun _ _ => id)

theorem wp_findForEntry {key : K} {x : UInt64} (hr : t.Ready) :
    wp (findForEntry u key x)
      (fun r s => s.1 = t ∧ s.2.ledger = w.ledger ∧ match r with
        | .inl loc => Matches u t key loc true
        | .inr hash => Refuted u t key x ∧ hash = x)
      (LookupPanic u t w.ledger) (t, w) := by
  have hstable : u.EqStable fun _ => True := fun _ _ _ _ => trivial
  rw [findForEntry, wp_bind]
  refine wp_mono (wp_find hr.toWf hstable ⟨rfl, rfl, trivial⟩) ?_ (fun _ _ => id)
  rintro (_ | loc) s ⟨⟨ht, hledger, -⟩, hfound⟩
  · exact ⟨ht, hledger, hfound, rfl⟩
  · exact ⟨ht, hledger, hfound⟩

theorem wp_finishDeferredRemovals (hr : t.Ready) :
    wp (finishDeferredRemovals group u)
      (fun _ s => (reading group).Mended u t s.1 ∧ s.1.totalSlots = t.totalSlots ∧ s.2.ledger = w.ledger)
      (fun e s => Halted u e ∧ (reading group).Unsettled u t s.1 w.code ((reading group).RefreshesDeferred t) ∧
        s.1.totalSlots = t.totalSlots ∧ s.2.ledger = w.ledger) (t, w) := by
  rw [finishDeferredRemovals, wp_bind, wp_get]
  refine wp_mono (wp_settleAfterDeletes hr fun hcleanup hrefresh => ⟨hcleanup, hrefresh⟩) ?_ (fun _ _ => id)
  rintro _ s ⟨h, hledger⟩
  exact ⟨⟨h.rearranged, h.capacity, h.settled anyNeedsCleanup_eq_false.mp⟩, h.totalSlots, hledger⟩

theorem maxInsertions_lt (hw : t.Wf) : t.maxInsertions < usizeMax := by
  have hsum := List.sum_le_card_nsmul t.capacities u32Max hw.small
  rw [hw.slots, show t.capacities.length = t.levels.length from List.length_map .., Nat.nsmul_eq_mul] at hsum
  have hbound : t.levels.length * u32Max ≤ 32 * u32Max := Nat.mul_le_mul_right _ hw.levels
  rw [hw.maxInsertions]
  apply Nat.lt_of_le_of_lt ((Capacity.maxInsertions_le ..).trans (hsum.trans hbound))
  decide

theorem contract (group : GroupBackend) (u : User W K V) :
    Contract (b := Elastic.backend group u) (reading group) u where
  mem_entries := fun _ => ElasticTable.mem_entries
  slotRef := fun he => he.2.2
  len_eq := fun _ => rfl
  capacity_eq := fun _ => rfl
  limit := fun hr => Wf.limit (Ready.toWf hr)
  capacity_lt := fun hr => maxInsertions_lt (Ready.toWf hr)
  len_le := fun hr => Wf.fits (Ready.toWf hr)
  len := fun hc => Counted.len hc
  find := by
    intro t J hJ hr k x w hc
    refine wp_mono (wp_find (Ready.toWf hr) hJ ⟨rfl, rfl, hc⟩) ?_ (fun _ _ => id)
    rintro r s ⟨⟨ht, hledger, hcode⟩, hfound⟩
    refine ⟨ht, hledger, hcode, ?_⟩
    cases r <;> exact hfound
  findForEntry := by
    intro t hr k x w
    refine wp_mono (wp_findForEntry hr) ?_ (fun _ _ => id)
    rintro (loc | hash) s ⟨ht, hledger, hfound⟩
    · exact ⟨ht, hledger, hfound⟩
    · exact ⟨ht, hledger, hfound⟩
  insertForVacant := by
    rintro t vacant x hr hv κ k v w
    obtain rfl : vacant = x := hv
    exact wp_insertForVacant hr
  insert := fun hr κ k v x w => wp_insert hr
  remove := fun hr he κ w => wp_remove hr he
  writeValue := by
    intro t loc e v hr he
    refine ⟨keeps_replaceValue hr he, entries_replaceValue he, holds_replaceValue he |>.mpr (.inl ⟨rfl, rfl⟩),
      samePlan_replaceValue.capacities, rfl, fun loc' hne => ?_⟩
    change ((t.replaceValue loc e.1 v).region loc'.1).Occ loc'.2 = _ ∧
      ((t.replaceValue loc e.1 v).region loc'.1).slot loc'.2 = _
    rw [region_replaceValue he]
    split
    · rename_i hlevel
      refine ⟨rfl, (Region.slot_setSlot loc'.2).trans (if_neg fun hslot => hne (Prod.ext hlevel hslot))⟩
    · exact ⟨rfl, rfl⟩
  extractFinish := by
    intro t loc e hr he
    have htaken := @taken_extractFinish _ _ t loc
    exact ⟨keeps_extractFinish hr he, rfl, htaken.entries he, htaken.undisturbed he⟩
  tombstoneSlot := by
    intro t loc e hr he
    have htaken := @taken_tombstoneSlot _ _ t loc
    have hwf := htaken.wf (Ready.toWf hr) he (Nat.le_succ _) (Nat.le_refl _)
    exact ⟨htaken.plan.ready hr hwf, rfl, htaken.sound he, htaken.entries he, htaken.undisturbed he⟩
  undisturbed_refl := fun _ => ⟨rfl, rfl, fun _ _ => ⟨rfl, rfl⟩⟩
  undisturbed_trans := fun h h' => ⟨h'.1.trans h.1, h'.2.1.trans h.2.1, fun i hi =>
    ⟨(h'.2.2 i hi).1.trans (h.2.2 i hi).1, (h'.2.2 i hi).2.trans (h.2.2 i hi).2⟩⟩
  undisturbed := by
    rintro t t' loc loc' e ⟨hcap, -, hothers⟩ hne ⟨hlt, hocc, hslot⟩
    obtain ⟨ho, hs⟩ := hothers loc' hne
    exact ⟨(capacity_congr hcap loc'.1) ▸ hlt, ho ▸ hocc, hs ▸ hslot⟩
  totalSlots := fun h => h.2.1
  finishDeferredRemovals := fun hr w => wp_finishDeferredRemovals hr
  scan := by
    intro t hr
    refine ⟨t.occupied, t.entries, scanning_scan, occupied_nodup, holds_occupied (Ready.toWf hr), rfl, ?_⟩
    have hlen := length_occupied (Ready.toWf hr)
    have hfits := Wf.fits (Ready.toWf hr)
    have hlimit := Wf.limit (Ready.toWf hr)
    have hmax := Wf.maxInsertions (Ready.toWf hr)
    have hle := Capacity.maxInsertions_le t.totalSlots t.reserveFraction
    change t.occupied.length ≤ t.totalSlots
    omega
  scanNext_nil := fun hr => scanNext_nil (Ready.toWf hr)
  scanNext_cons := fun hr => scanNext_cons (Ready.toWf hr)
  resize := fun hr hneeded hgrow w => wp_resize hr hneeded hgrow
  tryResize := fun hr hneeded hgrow w => wp_tryResize hr hneeded hgrow
  shrinkTo := fun hr minCapacity w => wp_shrinkTo hr minCapacity
  clear := fun hr κ w => wp_clear hr
  wipeAll := fun hr => ⟨ready_wipeAll hr, rfl, counted_wipeAll, .of_clean clean_wipeAll rfl, entries_wipeAll⟩
  cloneTable := fun hr κ w => wp_cloneTable hr
  dropTable := by
    intro t hr κ w
    have hregions : ∀ r ∈ t.levels.map Level.region, r.Scannable false ∧ r.Filled := by
      intro r hmem
      obtain ⟨l, hl, rfl⟩ := List.mem_map.mp hmem
      exact ⟨scannable_of_le (Wf.small (Ready.toWf hr) _ (List.mem_map_of_mem hl)), Wf.filled (Ready.toWf hr) l hl⟩
    have hentries : (t.levels.map Level.region).flatMap Region.entries = t.entries := List.flatMap_map ..
    refine wp_mono (wp_dropValues (κ := κ) hregions) ?_ ?_
    · intro _ w' h
      rwa [hentries] at h
    · rintro p w' ⟨hp, h⟩
      rw [hentries] at h
      exact ⟨hp, h⟩

end Contract

end Opthash.Elastic
