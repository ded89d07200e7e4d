import Opthash.Elastic.Reading

namespace Opthash.Elastic.ElasticTable

open Exec Ledger

variable {W K V : Type} {group : GroupBackend} {u : User W K V} {t t' : ElasticTable K V} {k : K} {v : V}
  {x : UInt64} {κ : K ⊕ V → Nat} {w : World W K V} {loc : Nat × Nat} {e : K × V}

section Insert

theorem settled_place (hs : t.Settled group) (ht : t.Vacant loc) (hc : t.Counted) :
    (t.place loc k v x).Settled group := by
  obtain ⟨-, l, hmem, hl, hr⟩ := ht.level
  refine ⟨levels_modify hl levels_place hs.levels fun hclean => ?_, hs.stale⟩
  have hslot := ht.slot
  rw [hr] at hslot
  have hcount := Region.tombstoneCount_writeWithControl (e := (k, v)) hslot (controlFingerprint_ne_ctrlTombstone x)
  have htomb := (hc.levels l hmem).2
  unfold Level.needsCleanup at *
  rw [decide_eq_false_iff_not] at *
  rw [Level.write]
  dsimp only [Region.capacity_writeWithControl]
  split
  · rename_i hmark
    rw [if_pos hmark] at hcount
    unfold wrappingDec
    split <;> omega
  · exact hclean

theorem added_place (hr : t.Ready) (hlen : t.len < t.maxInsertions) (ht : t.Target x loc) :
    (reading group).Added u t (t.place loc k v x) k v x where
  wf := samePlan_place.ready hr (wf_place hr.toWf ht hlen)
  counted := counted_place ht.vacant
  sound := fun hs hx => sound_place hr.toWf ht hx hs
  entries := entries_place ht.vacant
  grows := ⟨fun _ => rfl, fun hfull => absurd hfull (Nat.ne_of_lt hlen)⟩
  settled := fun hc hs => settled_place hs ht.vacant hc

theorem wp_insertForVacantEntryPrepared {w₁ : World W K V} (hr : t.Ready) (hl : w₁.ledger = w.ledger) :
    wp (insertForVacantEntryPrepared group u k v (.new x) (controlFingerprint x))
      (fun loc s => (reading group).Added u t s.1 k v x ∧ s.1.Holds loc (k, v) ∧ s.2.ledger = w.ledger)
      (NotPlaced (reading group) u κ t k v w) (t, w₁) := by
  rw [insertForVacantEntryPrepared, wp_bind]
  apply wp_owned_regrow
  have hprepare := @wp_prepareInsert _ _ _ group u t x w₁ hr
  rw [hl] at hprepare
  refine wp_mono hprepare ?_ (fun _ _ => id)
  rintro loc s ⟨hledger, hreadied, htarget⟩
  rw [wp_bind, wp_modify, wp_pure]
  exact ⟨hreadied.added (added_place hreadied.keeps.wf hreadied.room htarget),
    (holds_place htarget.vacant).mpr (.inl ⟨rfl, rfl⟩), hledger⟩

theorem wp_insertForVacant (hr : t.Ready) :
    wp (insertForVacant group u k v x)
      (fun loc s => (reading group).Added u t s.1 k v x ∧ s.1.Holds loc (k, v) ∧ s.2.ledger = w.ledger)
      (NotPlaced (reading group) u κ t k v w) (t, w) :=
  wp_insertForVacantEntryPrepared hr rfl

theorem settled_replaceValue (hs : t.Settled group) (he : t.Holds loc e) :
    (t.replaceValue loc e.1 v).Settled group := by
  obtain ⟨l, -, hl, -⟩ := level_of_lt he.level_lt
  exact ⟨levels_modify hl levels_replaceValue hs.levels id, hs.stale⟩

theorem keeps_replaceValue (hr : t.Ready) (he : t.Holds loc e) :
    (reading group).Steady u t (t.replaceValue loc e.1 v) :=
  ⟨⟨samePlan_replaceValue.ready hr (wf_replaceValue hr.toWf he), counted_replaceValue he, sound_replaceValue he⟩,
    rfl, fun _ hs => settled_replaceValue hs he⟩

theorem wp_insert (hr : t.Ready) :
    wp (insert group u k v x)
      (fun r s => match r with
        | some old => (reading group).Replaced u t s.1 k v old ∧ User.Dropped κ (κ (.inl k)) w s.2
        | none => (reading group).Refuted u t k x ∧ (reading group).Added u t s.1 k v x ∧ s.2.ledger = w.ledger)
      (InsertPanic (reading group) u κ t k v w ((reading group).Refuted u t k x)) (t, w) := by
  have hstable : u.EqStable fun _ => True := fun _ _ _ _ => trivial
  rw [insert, wp_bind]
  refine wp_mono (wp_owned_insertSearch hr (wp_find hr.toWf hstable ⟨rfl, rfl, trivial⟩)) ?_ (fun _ _ => id)
  rintro found ⟨t', w'⟩ ⟨⟨ht, hledger, -⟩, hfound⟩
  dsimp only at ht hledger
  subst ht
  cases found with
  | some loc =>
    obtain ⟨e, he, hans⟩ := hfound
    have hreplaced : (reading group).Replaced u t' (t'.replaceValue loc e.1 v) k v e.2 := by
      obtain ⟨rest, hrest, hrest'⟩ := entries_replaceValue (v := v) he
      exact ⟨keeps_replaceValue hr he, e.1, rest, hans, hrest, hrest'⟩
    simp only [replaceAt, wp_bind, wp_get, Region.getRef, he.2.2, expect, wp_pure, wp_modify, wp_onSnd]
    refine wp_mono (User.wp_dropBoth (κ := κ) (User.wp_dropK k) (User.wp_dropV e.2) w') ?_ ?_
    · intro _ w'' hdrop
      exact ⟨hreplaced, by rw [hdrop.gone, hledger], by rw [hdrop.made, hledger]⟩
    · rintro p w'' ⟨hp, hdrop⟩
      refine ⟨hp.blamed, fun hexhausted => absurd hexhausted hp.not_exhausted, fun hne => .inr ⟨e.2, hreplaced, ?_⟩⟩
      have hdrop := hdrop hne
      exact ⟨by rw [hdrop.gone, hledger]; rfl, by rw [hdrop.made, hledger]⟩
  | none =>
    dsimp only
    rw [wp_bind]
    refine wp_mono (wp_insertForVacantEntryPrepared (κ := κ) hr hledger) ?_ (fun _ _ h => h.insertPanic fun _ => hfound)
    rintro loc s ⟨hadded, -, hl⟩
    exact ⟨hfound, hadded, hl⟩

end Insert

end Opthash.Elastic.ElasticTable
