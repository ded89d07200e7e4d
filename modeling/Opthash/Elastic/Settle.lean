import Opthash.Elastic.Methods
import Opthash.Raw.Loops

namespace Opthash.Elastic.ElasticTable

open Exec Ledger

variable {W K V : Type} {group : GroupBackend} {u : User W K V} {q : Prop} {t t' : ElasticTable K V} {w : World W K V}
  {hashAt : Nat × Nat → UInt64} {locs : List (Nat × Nat)} {loc : Nat × Nat} {e : K × V}

section Refresh

def refreshed (t : ElasticTable K V) (hashAt : Nat × Nat → UInt64) (locs : List (Nat × Nat)) : ElasticTable K V :=
  { t with membership := t.recordAll hashAt locs, staleMembership := 0 }

theorem samePlan_refreshed : t.SamePlan (t.refreshed hashAt locs) :=
  ⟨rfl, rfl, rfl, rfl, rfl, rfl, MembershipRegion.words_recordAll⟩

theorem ready_refreshed (hr : t.Ready) : (t.refreshed hashAt locs).Ready :=
  samePlan_refreshed.ready hr (samePlan_refreshed.wf hr.toWf hr.filled hr.fits hr.limit
    (samePlan_refreshed.lodged hr.toWf fun _ e he => ⟨⟨e, he⟩, rfl⟩))

theorem sound_refreshed (hq : ¬q) (hs : t.Sound u q) : (t.refreshed hashAt locs).Sound u q := by
  intro hd loc e he
  obtain ⟨x, hx, hp⟩ := hs hd loc e he
  exact ⟨x, hx, ⟨hp.fingerprint, hp.reachable⟩, fun h => absurd h hq⟩

theorem counted_refreshed (hc : t.Counted) : (t.refreshed hashAt locs).Counted := ⟨hc.len, hc.levels⟩

theorem refreshed_append (loc : Nat × Nat) : t.refreshed hashAt (locs ++ [loc]) =
    (t.refreshed hashAt locs).recordMembership (.new (hashAt loc)) loc.1 := by
  rw [refreshed, recordAll, List.map_append, List.map_singleton, MembershipRegion.recordAll_append,
    recordMembership, samePlan_refreshed.words]
  rfl

theorem recorded_refreshed {level : Nat} {slotHash : Nat → UInt64} {slots : List Nat}
    {hashAt' : Nat × Nat → UInt64} (hold : ∀ loc ∈ locs, hashAt' loc = hashAt loc)
    (hnew : ∀ slot, hashAt' (level, slot) = slotHash slot) :
    recorded (fun _ x t => t.recordMembership (.new x) level) slotHash slots (t.refreshed hashAt locs) =
      t.refreshed hashAt' (locs ++ slots.map fun slot => (level, slot)) := by
  induction slots using List.reverseRecOn with
  | nil =>
    rw [List.map_nil, List.append_nil, refreshed, refreshed, recordAll_hashAt hold]
    rfl
  | append_singleton slots slot ih =>
    rw [recorded_append, ih, List.map_append, List.map_singleton, ← List.append_assoc, refreshed_append, hnew]

structure Refreshed (u : User W K V) (t t' : ElasticTable K V) : Prop where
  eq : ∃ hashAt, t' = t.refreshed hashAt t.occupied
  exact : t'.Exact u

theorem Refreshed.sound (h : Refreshed u t t') (hs : t.Sound u q) : t'.Sound u q := by
  intro hd loc e he
  obtain ⟨hashes, hhash, hmem⟩ := h.exact
  obtain ⟨hashAt, rfl⟩ := h.eq
  obtain ⟨x, hx, hp⟩ := hs hd loc e he
  refine ⟨x, hx, ⟨hp.fingerprint, hp.reachable⟩, fun hq => ?_⟩
  have hknows : (t.recordAll hashes t.occupied).Knows (t.recording loc (hashes loc)) := by
    refine MembershipRegion.knows_recordAll (hp.recorded hq).1 ?_ (summaryBit_ne_zero loc.1)
    exact List.mem_map_of_mem (mem_occupied.mpr ⟨he.1, he.2.1⟩)
  have hmem' : (t.refreshed hashAt t.occupied).membership = t.recordAll hashes t.occupied :=
    hmem.trans (recordAll_congr samePlan_refreshed.words)
  rw [hd hq e.1 _ x (hhash loc e he) hx, ← hmem'] at hknows
  unfold Recorded
  rwa [recording_congr samePlan_refreshed.words]

theorem wp_refreshMembership (hw : t.Wf) :
    wp (refreshMembership group u)
      (fun _ s => Refreshed u t s.1 ∧ s.2.ledger = w.ledger)
      (fun e s => u.Unwound e ∧ (∃ hashAt locs, s.1 = t.refreshed hashAt locs) ∧
        ¬u.CalmFor t.entries.length w.code ∧ s.2.ledger = w.ledger) (t, w) := by
  rw [refreshMembership, wp_bind, wp_modify, wp_bind, wp_get]
  apply wp_forM (fun rest s => ∃ done hashAt, List.range t.levels.length = done ++ rest ∧
    (∀ loc e, loc.1 ∈ done → t.Holds loc e → u.Hashes e.1 (hashAt loc)) ∧
    s.1 = t.refreshed hashAt (done.flatMap t.levelLocs) ∧ s.2.ledger = w.ledger ∧
    ∀ n, u.CalmFor (t.occupied.length + n) w.code → u.CalmFor ((rest.flatMap t.levelLocs).length + n) s.2.code)
  · rintro level rest ⟨_, w'⟩ ⟨done, hashAt, hall, hhash, rfl, hledger, hcalm⟩
    dsimp only at hledger hcalm
    have hnodup := List.nodup_range (n := t.levels.length)
    rw [hall] at hnodup
    have hfresh : level ∉ done := fun h => (List.nodup_append.mp hnodup).2.2 level h level (List.mem_cons_self ..) rfl
    -- The hashes of the level's keys join those of the levels before it.
    have hjoin : ∀ slotHash : Nat → UInt64, ∃ hashAt' : Nat × Nat → UInt64,
        (∀ loc, loc.1 ∈ done → hashAt' loc = hashAt loc) ∧ ∀ slot, hashAt' (level, slot) = slotHash slot := by
      intro slotHash
      refine ⟨fun loc => if loc.1 = level then slotHash loc.2 else hashAt loc, fun loc hloc => ?_, fun slot => if_pos rfl⟩
      dsimp only
      rw [if_neg]
      rintro rfl
      exact hfresh hloc
    have hold : ∀ hashAt' : Nat × Nat → UInt64, (∀ loc, loc.1 ∈ done → hashAt' loc = hashAt loc) →
        ∀ loc ∈ done.flatMap t.levelLocs, hashAt' loc = hashAt loc := by
      intro hashAt' h loc hloc
      obtain ⟨level', hlevel', hmem⟩ := List.mem_flatMap.mp hloc
      obtain ⟨slot, -, rfl⟩ := List.mem_map.mp hmem
      exact h _ hlevel'
    have hlen : ((level :: rest).flatMap t.levelLocs).length =
        (t.region level).occupied.length + (rest.flatMap t.levelLocs).length := by
      rw [List.flatMap_cons, List.length_append, levelLocs, List.length_map]
    refine wp_mono (wp_recordOccupied (fun t : ElasticTable K V => t.region level)
      (fun _ x t => t.recordMembership (.new x) level) (fun _ => rfl) (fun _ _ _ => rfl)
      (hw.scannable level) (filled_region hw level)) ?_ ?_
    · rintro _ ⟨_, w''⟩ ⟨slotHash, hslots, rfl, hledger', hcalm'⟩
      obtain ⟨hashAt', hsame, hlevel⟩ := hjoin slotHash
      refine ⟨done ++ [level], hashAt', by rw [hall, List.append_assoc]; rfl, ?_, ?_, hledger'.trans hledger, ?_⟩
      · intro loc e hloc he
        rcases List.mem_append.mp hloc with h | h
        · rw [hsame loc h]
          exact hhash loc e h he
        · obtain ⟨level', slot⟩ := loc
          obtain rfl := List.mem_singleton.mp h
          rw [hlevel]
          exact hslots slot e he
      · rw [List.flatMap_append, List.flatMap_singleton]
        exact recorded_refreshed (hold hashAt' hsame) hlevel
      · intro n h
        have hnext := hcalm n h
        rw [hlen, Nat.add_assoc] at hnext
        exact hcalm' _ hnext
    · rintro p ⟨_, w''⟩ ⟨hp, ⟨slotHash, slots, rfl⟩, hledger', hcalm'⟩
      obtain ⟨hashAt', hsame, hlevel⟩ := hjoin slotHash
      refine ⟨hp, ⟨hashAt', _, recorded_refreshed (hold hashAt' hsame) hlevel⟩, fun h => ?_, hledger'.trans hledger⟩
      rw [← length_occupied hw] at h
      have hnext := hcalm 0 h
      rw [hlen, Nat.add_assoc] at hnext
      exact hcalm' _ hnext
  · rintro ⟨_, w'⟩ ⟨done, hashAt, hall, hhash, rfl, hledger, -⟩
    rw [List.append_nil] at hall
    subst hall
    refine ⟨⟨⟨hashAt, rfl⟩, hashAt, fun loc e he => ?_, (recordAll_congr samePlan_refreshed.words).symm⟩, hledger⟩
    exact hhash loc e (List.mem_range.mpr (Holds.level_lt he)) he
  · exact ⟨[], fun _ => 0, rfl, fun _ _ h => (List.not_mem_nil h).elim, rfl, rfl, fun n h => h⟩

end Refresh

section Settle

theorem Refreshed.steady (h : Refreshed u t t') (hr : t.Ready) :
    (reading group).Steady u t t' ∧ t'.entries = t.entries ∧ t'.levels = t.levels ∧ t'.needsRefresh = false := by
  have hsound : ∀ {q : Prop}, t.Sound u q → t'.Sound u q := fun hs => h.sound hs
  obtain ⟨hashAt, rfl⟩ := h.eq
  have hstale : (t.refreshed hashAt t.occupied).needsRefresh = false := decide_eq_false (Nat.not_lt_zero _)
  exact ⟨⟨⟨ready_refreshed hr, counted_refreshed, hsound⟩, rfl, fun _ hs => ⟨hs.levels, hstale⟩⟩, rfl, rfl, hstale⟩

/-- What a settling of deletes leaves: no maintenance is due when the caller looked at every level. -/
structure SettledDeletes (u : User W K V) (group : GroupBackend) (needsCleanup : Bool) (t t' : ElasticTable K V) :
    Prop where
  rearranged : (reading group).Rearranged u t t'
  capacity : t'.maxInsertions = t.maxInsertions
  totalSlots : t'.totalSlots = t.totalSlots
  settled : (needsCleanup = false → ∀ l ∈ t.levels, l.needsCleanup group = false) → t'.Settled group
  exact : needsCleanup = true ∨ t.needsRefresh = true → t'.Exact u ∧ t'.staleMembership = 0

theorem wp_settleAfterDeletes {needsCleanup : Bool} {refreshes : Prop} (hr : t.Ready)
    (hdue : needsCleanup = false → t.needsRefresh = true → refreshes) :
    wp (settleAfterDeletes group u needsCleanup)
      (fun _ s => SettledDeletes u group needsCleanup t s.1 ∧ s.2.ledger = w.ledger)
      (fun e s => Halted u e ∧ (reading group).Unsettled u t s.1 w.code refreshes ∧ s.1.totalSlots = t.totalSlots ∧
        s.2.ledger = w.ledger) (t, w) := by
  simp only [settleAfterDeletes, wp_bind, wp_get, wp_ite]
  refine ⟨fun _ => ?_, fun hcleanup => ⟨fun hrefresh => ?_, fun hrefresh => ?_⟩⟩
  · have hfit : t.len ≤ Capacity.maxInsertions t.totalSlots t.reserveFraction := hr.maxInsertions ▸ hr.limit
    refine wp_mono (wp_resizeWithTransition hr.toWf hfit .tombstoneCleanup w) ?_ ?_
    · rintro _ s ⟨hledger, g, hg, hrebuilt⟩
      refine ⟨⟨hrebuilt.rearranged ?_, ?_, hrebuilt.totalSlots.trans hg.totalSlots,
        fun _ => .of_clean hrebuilt.clean hrebuilt.stale,
        fun _ => ⟨hrebuilt.exact, hrebuilt.stale⟩⟩, hledger⟩
      · rw [hg.totalSlots]
        exact hr.scaled
      · rw [hrebuilt.maxInsertions hg, hg.maxInsertions, hr.maxInsertions]
    · rintro e ⟨_, w'⟩ ⟨he, rfl, hledger⟩
      exact ⟨he, ⟨hr, id, rfl, .refl _, .inl⟩, rfl, hledger⟩
  · refine wp_mono (wp_refreshMembership hr.toWf) ?_ ?_
    · rintro _ s ⟨hrefreshed, hledger⟩
      obtain ⟨hsteady, hentries, hlevels, hstale⟩ := @Refreshed.steady _ _ _ group u t s.1 hrefreshed hr
      have hclean : needsCleanup = false := by simpa using hcleanup
      obtain ⟨hashAt, heq⟩ := hrefreshed.eq
      refine ⟨⟨⟨hsteady.toKeeps, .of_eq hentries⟩, hsteady.capacity, ?_, fun h => ⟨hlevels ▸ h hclean, hstale⟩,
        fun _ => ⟨hrefreshed.exact, ?_⟩⟩, hledger⟩
      all_goals
        rw [heq]
        rfl
    · rintro e ⟨_, w'⟩ ⟨he, ⟨hashAt, locs, rfl⟩, hcalm, hledger⟩
      have hdue := hdue (by simpa using hcleanup) hrefresh
      refine ⟨.inl he, ⟨ready_refreshed hr, counted_refreshed, rfl, .refl _, ?_⟩, rfl, hledger⟩
      intro q hs
      by_cases hq : q
      · exact .inr ⟨hq, hdue, hcalm⟩
      · exact .inl (sound_refreshed hq hs)
  · refine ⟨⟨.refl hr, rfl, rfl, fun h => ⟨h (by simpa using hcleanup), by simpa using hrefresh⟩, fun h => ?_⟩, rfl⟩
    rcases h with h | h
    · exact absurd h hcleanup
    · exact absurd h hrefresh

theorem keeps_extractFinish (hr : t.Ready) (he : t.Holds loc e) :
    (reading group).Keeps u t (t.extractFinish loc) := by
  have htaken := @taken_extractFinish _ _ t loc
  have hlen := len_pos hr.toWf he
  have hpred : (t.extractFinish loc).len = t.len - 1 := rfl
  exact ⟨htaken.plan.ready hr (htaken.wf hr.toWf he (by omega) (by omega)), counted_extractFinish hr.toWf he, htaken.sound he⟩

theorem Settled.extractFinish (hs : t.Settled group) (he : t.Holds loc e)
    (hlevel : (t.extractFinish loc).levelNeedsCleanup group loc.1 = false) :
    ∀ l ∈ (t.extractFinish loc).levels, l.needsCleanup group = false := by
  have htaken := @taken_extractFinish _ _ t loc
  obtain ⟨l, -, hl, -⟩ := level_of_lt he.level_lt
  refine levels_modify hl htaken.levels hs.levels fun _ => ?_
  have hget : (t.extractFinish loc).levels[loc.1]? = some (l.extractFinish loc.2) := by
    rw [htaken.levels, List.getElem?_modify, hl, Option.map_eq_map, Option.map_some, if_pos rfl]
  rwa [levelNeedsCleanup, hget] at hlevel

theorem wp_remove {κ : K ⊕ V → Nat} (hr : t.Ready) (he : t.Holds loc e) :
    wp (remove group u loc)
      (fun e' s => e' = e ∧ (reading group).Steady u t s.1 ∧ t.entries.Perm (e :: s.1.entries) ∧
        s.2.ledger = w.ledger)
      (fun p s => p.Blamed (¬u.Calm) ∧ (p ≠ .abort →
        t.entries.Perm (e :: s.1.entries) ∧
        (∃ t₁, (reading group).Keeps u t t₁ ∧ t₁.maxInsertions = t.maxInsertions ∧
          t.entries.Perm (e :: t₁.entries) ∧
          (reading group).Unsettled u t₁ s.1 w.code ((reading group).RefreshesAfter t loc)) ∧
        User.Dropped κ (weighEntry κ e) w s.2)) (t, w) := by
  have hkeeps : (reading group).Keeps u t (t.extractFinish loc) := keeps_extractFinish hr he
  have hperm : t.entries.Perm (e :: (t.extractFinish loc).entries) := taken_extractFinish.entries he
  simp only [remove, wp_bind, wp_get, Region.getRef, he.2.2, expect, wp_pure, wp_modify]
  apply User.wp_owned (κ := κ)
  · exact fun h _ => ⟨.abort h, fun h => absurd rfl h⟩
  rw [wp_bind, wp_get]
  refine wp_mono (@wp_settleAfterDeletes _ _ _ group u _ w _ ((reading group).RefreshesAfter t loc) hkeeps.wf
    (fun hcleanup hrefresh => ⟨hcleanup, hrefresh⟩)) ?_ ?_
  · rintro _ s ⟨⟨hrearranged, hcapacity, -, hsettled, -⟩, hledger⟩
    refine ⟨rfl, ⟨hkeeps.trans hrearranged.keeps, hcapacity, fun _ hs => ?_⟩,
      hperm.trans (hrearranged.entries.symm.cons e), hledger⟩
    exact hsettled (Settled.extractFinish hs he)
  · rintro p s ⟨hp, hunsettled, -, hledger⟩
    refine ⟨fun h => absurd h hp.ne_abort, fun _ w' hw' => ⟨hp.blamed, fun _ => ⟨?_, ?_, ?_⟩⟩⟩
    · exact hperm.trans (hunsettled.entries.symm.cons e)
    · exact ⟨_, hkeeps, rfl, hperm, hunsettled⟩
    · exact ⟨by rw [hw'.gone, hledger], by rw [hw'.made, hledger]⟩

end Settle

end Opthash.Elastic.ElasticTable
