import Opthash.Funnel.Reading
import Opthash.Raw.Loops

namespace Opthash.Funnel.FunnelTable

open Exec Probe Probing Ledger

variable {W K V : Type} {group : GroupBackend} {u : User W K V} {q : Prop} {t t' : FunnelTable K V} {w : World W K V}
  {hashAt : Nat → UInt64} {slots : List Nat}

section Refresh

def refreshed (t : FunnelTable K V) (hashAt : Nat → UInt64) (slots : List Nat) : FunnelTable K V :=
  { t with membership := t.recordAll hashAt slots, staleMembership := 0 }

theorem words_refreshed : (t.refreshed hashAt slots).membership.words = t.membership.words :=
  MembershipRegion.words_recordAll

theorem wf_refreshed (hw : t.Wf) : (t.refreshed hashAt slots).Wf where
  planned := hw.planned
  capacity := hw.capacity
  small := hw.small
  filled := hw.filled
  padded := hw.padded
  fits := hw.fits
  limit := hw.limit
  words := words_refreshed.trans hw.words
  bins := by
    intro word bin level hlevel hbit
    obtain ⟨r, hr, hbit⟩ := MembershipRegion.levelBins_recordAll hbit
    obtain ⟨slot, -, rfl⟩ := List.mem_map.mp hr
    exact knownLevels_levelBit hw.levels_nil slot level hlevel hbit

theorem sound_refreshed (hq : ¬q) (hs : t.Sound u q) : (t.refreshed hashAt slots).Sound u q := by
  intro hd slot e he
  obtain ⟨x, hx, hp⟩ := hs hd slot e he
  exact ⟨x, hx, hp.fingerprint, fun h => absurd h hq, hp.reachable⟩

theorem counted_refreshed (hc : t.Counted) : (t.refreshed hashAt slots).Counted := ⟨hc.len, hc.tombstones⟩

theorem refreshed_append (slot : Nat) : (t.refreshed hashAt (slots ++ [slot])) =
    (t.refreshed hashAt slots).recordMembership ((t.refreshed hashAt slots).membershipSlot (hashAt slot))
      ((t.refreshed hashAt slots).levelBit slot) := by
  have hslot : (t.refreshed hashAt slots).membershipSlot (hashAt slot) = t.membershipSlot (hashAt slot) :=
    membershipSlot_congr words_refreshed _
  rw [refreshed, recordAll, List.map_append, List.map_singleton, MembershipRegion.recordAll_append,
    recordMembership, hslot]
  rfl

theorem recorded_clearMembership : recorded
    (fun slot x t => t.recordMembership (t.membershipSlot x) (t.levelBit slot)) hashAt slots t.clearMembership =
      t.refreshed hashAt slots := by
  induction slots using List.reverseRecOn with
  | nil => rfl
  | append_singleton slots slot ih => rw [recorded_append, ih, refreshed_append]

structure Refreshed (u : User W K V) (t t' : FunnelTable K V) : Prop where
  eq : ∃ hashAt, t' = t.refreshed hashAt t.storage.occupied
  exact : t'.Exact u

theorem Refreshed.wf (h : Refreshed u t t') (hw : t.Wf) : t'.Wf := by
  obtain ⟨hashAt, rfl⟩ := h.eq
  exact wf_refreshed hw

theorem Refreshed.counted (h : Refreshed u t t') (hc : t.Counted) : t'.Counted := by
  obtain ⟨hashAt, rfl⟩ := h.eq
  exact counted_refreshed hc

theorem Refreshed.storage (h : Refreshed u t t') : t'.storage = t.storage := by
  obtain ⟨hashAt, rfl⟩ := h.eq
  rfl

theorem Refreshed.sound (h : Refreshed u t t') (hs : t.Sound u q) : t'.Sound u q := by
  intro hd slot e he
  obtain ⟨hashes, hhash, hmem⟩ := h.exact
  rw [h.storage] at he hhash hmem
  obtain ⟨x, hx, hp⟩ := hs hd slot e he
  obtain ⟨hashAt, rfl⟩ := h.eq
  refine ⟨x, hx, hp.fingerprint, fun hq => ?_, hp.reachable⟩
  have hwords : t.membership.words ≠ 0 := (hp.recorded hq).1
  have hknows : (t.recordAll hashes t.storage.occupied).Knows (t.recording slot (hashes slot)) := by
    refine MembershipRegion.knows_recordAll hwords ?_ (levelBit_ne_zero t slot)
    exact List.mem_map_of_mem (t.storage.mem_occupied.mpr ⟨he.1, he.2.1⟩)
  rw [hd hq e.1 _ x (hhash slot e he) hx, ← recordAll_congr words_refreshed rfl, ← hmem] at hknows
  unfold Recorded
  rwa [recording_congr words_refreshed rfl]

/-- A refresh the hasher interrupts leaves a filter that knows some of the entries only. -/
structure HalfRefreshed (t t' : FunnelTable K V) : Prop where
  eq : ∃ hashAt slots, t' = t.refreshed hashAt slots

theorem wp_refreshMembership (hw : t.Wf) :
    wp (refreshMembership group u)
      (fun _ s => Refreshed u t s.1 ∧ s.2.ledger = w.ledger)
      (fun e s => u.Unwound e ∧ HalfRefreshed t s.1 ∧ ¬u.CalmFor t.storage.entries.length w.code ∧
        s.2.ledger = w.ledger) (t, w) := by
  rw [refreshMembership, wp_bind, wp_modify]
  refine wp_mono (wp_recordOccupied FunnelTable.storage
    (fun slot x t => t.recordMembership (t.membershipSlot x) (t.levelBit slot)) (fun _ => rfl)
    (fun _ _ _ => rfl) hw.scannable hw.filled) ?_ ?_
  · rintro _ ⟨_, w'⟩ ⟨hashAt, hhash, rfl, hledger, -⟩
    refine ⟨⟨⟨hashAt, recorded_clearMembership⟩, hashAt, ?_, ?_⟩, hledger⟩
    · rw [recorded_clearMembership]
      exact hhash
    · rw [recorded_clearMembership]
      exact (recordAll_congr words_refreshed rfl).symm
  · rintro e ⟨_, w'⟩ ⟨he, ⟨hashAt, slots, rfl⟩, hledger, hcalm⟩
    refine ⟨he, ⟨hashAt, slots, recorded_clearMembership⟩, ?_, hledger⟩
    rw [Region.length_entries hw.filled]
    exact hcalm 0

end Refresh

section Settle

theorem Refreshed.mended (h : Refreshed u t t') (hw : t.Wf) (hclean : t.needsCleanup group = false) :
    (reading group).Mended u t t' := by
  refine ⟨⟨⟨h.wf hw, h.counted, h.sound⟩, List.Perm.of_eq (congrArg Region.entries h.storage)⟩, ?_, ?_⟩
  · obtain ⟨hashAt, rfl⟩ := h.eq
    rfl
  · obtain ⟨hashAt, rfl⟩ := h.eq
    exact ⟨hclean, decide_eq_false (Nat.not_lt_zero _)⟩

theorem Rebuilt.mended {transition : EpochTransition} (h : Rebuilt u t t.shape transition t') :
    (reading group).Mended u t t' :=
  ⟨h.rearranged, congrArg FunnelShape.maxInsertions h.shape, h.settled⟩

theorem wp_settleAfterDeletes (hw : t.Wf) :
    wp (settleAfterDeletes group u)
      (fun _ s => (reading group).Mended u t s.1 ∧
        (t.needsCleanup group = true ∨ t.needsRefresh = true → s.1.Exact u ∧ s.1.staleMembership = 0) ∧
        s.1.shape = t.shape ∧ s.2.ledger = w.ledger)
      (fun e s => Halted u e ∧ (reading group).Unsettled u t s.1 w.code ((reading group).RefreshesDeferred t) ∧
        s.1.shape = t.shape ∧ s.2.ledger = w.ledger) (t, w) := by
  simp only [settleAfterDeletes, wp_bind, wp_get, wp_ite]
  refine ⟨fun _ => ?_, fun hcleanup => ⟨fun hrefresh => ?_, fun hrefresh => ?_⟩⟩
  · refine wp_mono (wp_resizeWithTransition hw hw.planned hw.limit .tombstoneCleanup w) ?_ ?_
    · rintro _ s ⟨hledger, hr⟩
      exact ⟨hr.mended, fun _ => ⟨hr.exact, hr.stale⟩, hr.shape, hledger⟩
    · rintro e ⟨_, w'⟩ ⟨he, rfl, hledger⟩
      exact ⟨he, ⟨hw, id, rfl, .refl _, .inl⟩, rfl, hledger⟩
  · refine wp_mono (wp_refreshMembership hw) ?_ ?_
    · rintro _ s ⟨hr, hledger⟩
      obtain ⟨hashAt, heq⟩ := hr.eq
      refine ⟨hr.mended hw (by simpa using hcleanup), fun _ => ⟨hr.exact, ?_⟩, ?_, hledger⟩
      all_goals
        rw [heq]
        rfl
    · rintro e ⟨_, w'⟩ ⟨he, ⟨hashAt, slots, rfl⟩, hcalm, hledger⟩
      have hdue : (reading group).RefreshesDeferred t := ⟨by simpa using hcleanup, hrefresh⟩
      refine ⟨.inl he, ⟨wf_refreshed hw, counted_refreshed, rfl, .refl _, ?_⟩, rfl, hledger⟩
      intro q hs
      by_cases hq : q
      · exact .inr ⟨hq, hdue, hcalm⟩
      · exact .inl (sound_refreshed hq hs)
  · refine ⟨⟨.refl hw, rfl, by simpa using hcleanup, by simpa using hrefresh⟩, fun h => ?_, rfl, rfl⟩
    rcases h with h | h
    · exact absurd h hcleanup
    · exact absurd h hrefresh

variable {slot : Nat} {e : K × V}

theorem keeps_extractFinish (hw : t.Wf) (he : t.storage.Holds slot e) :
    (reading group).Keeps u t (t.extractFinish slot) := by
  have htaken : t.Tombstoned slot (t.extractFinish slot) := tombstoned_extractFinish
  have hlen := len_pos hw he
  have hpred : (t.extractFinish slot).len = t.len - 1 := rfl
  exact ⟨htaken.wf hw he (by omega) (by omega), htaken.counted hw he hpred rfl, htaken.sound⟩

theorem wp_remove {κ : K ⊕ V → Nat} (hw : t.Wf) (he : t.storage.Holds slot e) :
    wp (remove group u slot)
      (fun e' s => e' = e ∧ (reading group).Steady u t s.1 ∧
        t.storage.entries.Perm (e :: s.1.storage.entries) ∧ s.2.ledger = w.ledger)
      (fun p s => p.Blamed (¬u.Calm) ∧ (p ≠ .abort →
        t.storage.entries.Perm (e :: s.1.storage.entries) ∧
        (∃ t₁, (reading group).Keeps u t t₁ ∧ t₁.shape.maxInsertions = t.shape.maxInsertions ∧
          t.storage.entries.Perm (e :: t₁.storage.entries) ∧
          (reading group).Unsettled u t₁ s.1 w.code ((reading group).RefreshesAfter t slot)) ∧
        User.Dropped κ (weighEntry κ e) w s.2)) (t, w) := by
  have hkeeps : (reading group).Keeps u t (t.extractFinish slot) := keeps_extractFinish hw he
  have hperm : t.storage.entries.Perm (e :: (t.extractFinish slot).storage.entries) :=
    tombstoned_extractFinish.entries he
  simp only [remove, wp_bind, wp_get, Region.getRef, he.2.2, expect, wp_pure, wp_modify]
  apply User.wp_owned (κ := κ)
  · exact fun h _ => ⟨.abort h, fun h => absurd rfl h⟩
  refine wp_mono (wp_settleAfterDeletes hkeeps.wf) ?_ ?_
  · rintro _ s ⟨hr, -, -, hledger⟩
    exact ⟨rfl, ⟨hkeeps.trans hr.keeps, hr.capacity, fun _ _ => hr.settled⟩, hperm.trans (hr.entries.symm.cons e), hledger⟩
  · rintro p s ⟨hp, hunsettled, -, hledger⟩
    refine ⟨fun h => absurd h hp.ne_abort, fun _ w' hw' => ⟨hp.blamed, fun _ => ⟨?_, ?_, ?_⟩⟩⟩
    · exact hperm.trans (hunsettled.entries.symm.cons e)
    · exact ⟨_, hkeeps, rfl, hperm, hunsettled⟩
    · exact ⟨by rw [hw'.gone, hledger], by rw [hw'.made, hledger]⟩

end Settle

end Opthash.Funnel.FunnelTable
