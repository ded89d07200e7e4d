import Opthash.Contract
import Opthash.Funnel.Resize

namespace Opthash.Funnel

open Exec FunnelTable

variable {W K V : Type} (group : GroupBackend)

def FunnelTable.Settled (t : FunnelTable K V) : Prop := t.needsCleanup group = false ∧ t.needsRefresh = false

def reading : Reading (FunnelTable K V) Nat FunnelVacant FunnelScan K V where
  Wf := FunnelTable.Wf
  Counted := FunnelTable.Counted
  Blank := fun t => t.storage.Blank
  Settled := FunnelTable.Settled group
  len := FunnelTable.len
  capacity := fun t => t.shape.maxInsertions
  Holds := fun t slot e => t.storage.Holds slot e
  Placed := FunnelTable.Placed
  Fits := FunnelTable.Fits
  entries := fun t => t.storage.entries
  Scanning := fun t scan slots => match scan with
    | .dense next => t.storage.occupiedFrom next = slots
    | .sparse cursor => cursor.Valid group ∧ cursor.pending group t.storage = slots
  Undisturbed := fun t slot t' => t'.storage.capacity = t.storage.capacity ∧ t'.shape.n = t.shape.n ∧
    ∀ i, i ≠ slot → t'.storage.Occ i = t.storage.Occ i ∧ t'.storage.slot i = t.storage.slot i
  RefreshesAfter := fun t slot =>
    (t.extractFinish slot).needsCleanup group = false ∧ (t.extractFinish slot).needsRefresh = true
  RefreshesDeferred := fun t => t.needsCleanup group = false ∧ t.needsRefresh = true

variable {group} {u : User W K V} {t t' : FunnelTable K V}

namespace FunnelTable

theorem Rebuilt.rearranged {shape : FunnelShape} {transition : EpochTransition}
    (h : Rebuilt u t shape transition t') : (reading group).Rearranged u t t' :=
  ⟨⟨h.wf, fun _ => h.counted, fun _ => h.sound _⟩, h.entries⟩

theorem Settled.of_clean (hclean : t.tombstones = 0) (hstale : t.staleMembership = 0) : t.Settled group := by
  refine ⟨?_, ?_⟩
  · rw [needsCleanup, hclean]
    exact decide_eq_false (Nat.not_lt_zero _)
  · rw [needsRefresh, hstale]
    exact decide_eq_false (Nat.not_lt_zero _)

theorem Rebuilt.settled {shape : FunnelShape} {transition : EpochTransition} (h : Rebuilt u t shape transition t') :
    t'.Settled group := .of_clean h.clean h.stale

theorem Rebuilt.refitted {shape : FunnelShape} {transition : EpochTransition} {needed : Nat}
    (h : Rebuilt u t shape transition t') (hfit : needed ≤ shape.maxInsertions) :
    (reading group).Refitted u needed t t' := by
  refine ⟨h.rearranged, ?_, h.settled⟩
  change needed ≤ t'.shape.maxInsertions
  rwa [h.shape]

theorem Settled.mono (h : t.Settled group) (hshape : t'.shape = t.shape) (htomb : t'.tombstones ≤ t.tombstones)
    (hstale : t'.staleMembership ≤ t.staleMembership) : t'.Settled group := by
  obtain ⟨hcleanup, hrefresh⟩ := h
  unfold Settled needsCleanup needsRefresh at *
  rw [hshape]
  simp only [decide_eq_false_iff_not] at *
  omega

section Grow

variable {ledger : Ledger K V}

theorem nextGrowthSlots_spec {needed slots : Nat} (h : t.nextGrowthSlots needed = some slots) :
    ∃ shape : FunnelShape, shape.Planned t.reserveFraction ∧ slots = shape.n ∧ needed ≤ shape.maxInsertions ∧
      needed < isizeMax := by
  unfold nextGrowthSlots at h
  split at h
  · cases h
  · dsimp only at h
    split at h
    · rename_i shape hshape
      cases h
      obtain ⟨hle, hplanned⟩ := FunnelShape.forInsertBudget_spec hshape
      exact ⟨shape, hplanned, rfl, by omega, by omega⟩
    · cases h

theorem wp_growForNextInsert (hw : t.Wf) (w : World W K V) :
    wp (growForNextInsert group u)
      (fun _ s => s.2.ledger = w.ledger ∧ (reading group).Rearranged u t s.1 ∧ t.len < s.1.shape.maxInsertions ∧
        s.1.len ≤ t.len ∧ s.1.Settled group ∧ s.1.probeSeed = t.probeSeed)
      (Refused u t w.ledger) (t, w) := by
  simp only [growForNextInsert, wp_bind, wp_get, wp_expect]
  refine ⟨fun slots hslots => ?_, fun _ => ⟨.inr .capacity, rfl, rfl⟩⟩
  obtain ⟨shape, hshape, rfl, hneeded, hsmall⟩ := nextGrowthSlots_spec hslots
  have hlen : t.len + 1 ≤ shape.maxInsertions := by
    unfold saturatingUsize usizeMax isizeMax at *
    omega
  refine wp_mono (wp_resizeWithTransition hw hshape (by omega) .growth w) ?_ (fun _ _ h => h)
  rintro _ s ⟨hledger, hr⟩
  refine ⟨hledger, hr.rearranged, by rw [hr.shape]; omega, ?_, hr.settled, hr.probeSeed (by decide)⟩
  have := hw.fits
  rwa [hr.counted.len, hr.entries.length_eq]

theorem wp_prepareVacantInsert (hw : t.Wf) (w : World W K V) :
    wp (prepareVacantInsert group u)
      (fun grown s => s.2.ledger = w.ledger ∧ (reading group).Readied u t s.1 ∧
        s.1.probeSeed = t.probeSeed ∧ (grown = false → s.1 = t))
      (Refused u t w.ledger) (t, w) := by
  simp only [prepareVacantInsert, wp_bind, wp_get, wp_ite]
  refine ⟨fun hfull => ?_, fun hlt => ?_⟩
  · refine wp_mono (wp_growForNextInsert hw w) ?_ (fun _ _ => id)
    rintro _ s ⟨hledger, hr, hlen, hle, hsettled, hseed⟩
    have hroom : (reading group).len s.1 < (reading group).capacity s.1 := Nat.lt_of_le_of_lt hle hlen
    have hgrows : (reading group).Grows t s.1 :=
      ⟨fun hlt => absurd hlt (Nat.not_lt.mpr hfull), fun hfull => hfull.symm.trans_lt hlen⟩
    exact ⟨hledger, ⟨⟨hr, fun _ _ => hsettled⟩, hgrows, hroom⟩, hseed, fun h => by cases h⟩
  · exact ⟨rfl, .refl hw (Nat.lt_of_not_le hlt), rfl, fun _ => rfl⟩

end Grow

section Placement

variable {k : K} {v : V} {x : UInt64}

theorem added_place {slot : Nat} {exceptional : Bool} (hw : t.Wf) (hlen : t.len < t.shape.maxInsertions)
    (ht : t.Target x slot exceptional) :
    (reading group).Added u t (t.place slot k v x exceptional) k v x := by
  refine ⟨wf_place hw ht.lt ht.free hlen, counted_place hw ht.lt ht.free,
    fun hs hx => sound_place hw ht.lt hx ht.reachable hs, entries_place hw ht.lt ht.free,
    ⟨fun _ => rfl, fun hfull => absurd hfull (Nat.ne_of_lt hlen)⟩, fun hc hs => ?_⟩
  refine Settled.mono hs rfl ?_ (Nat.le_refl _)
  have hcounted := (@counted_place _ _ t slot k v x exceptional hw ht.lt ht.free hc).tombstones
  have hcount := Region.tombstoneCount_writeWithControl (r := t.storage) (e := (k, v))
    (by rw [hw.capacity]; exact ht.lt) (controlFingerprint_ne_ctrlTombstone x)
  rw [storage_place] at hcounted
  rw [hcounted, hc.tombstones]
  split at hcount <;> omega

theorem entries_lt (hw : t.Wf) (hlen : t.len < t.shape.maxInsertions) :
    t.storage.entries.length < t.shape.n := by
  have := hw.fits
  have := FunnelShape.maxInsertions_le hw.shape
  omega

theorem added_notePlacement {t₁ : FunnelTable K V} {exceptional rebuilt : Bool}
    (h : (reading group).Added u t t₁ k v x) :
    (reading group).Added u t (notePlacement exceptional rebuilt t₁) k v x := by
  have hepoch : ∃ epoch, notePlacement exceptional rebuilt t₁ = { t₁ with epoch } := by
    unfold notePlacement
    split
    · exact ⟨_, rfl⟩
    · split
      · exact ⟨_, rfl⟩
      · exact ⟨_, rfl⟩
  obtain ⟨epoch, hepoch⟩ := hepoch
  rw [hepoch]
  exact ⟨h.wf.withEpoch epoch, fun hc => (h.counted hc).withEpoch epoch,
    fun hs hx => Sound.withEpoch (h.sound hs hx) epoch, h.entries, ⟨h.grows.below, h.grows.reached⟩, h.settled⟩

theorem storage_notePlacement (exceptional rebuilt : Bool) (t : FunnelTable K V) :
    (notePlacement exceptional rebuilt t).storage = t.storage := by
  unfold notePlacement
  split
  · rfl
  · split <;> rfl

theorem wp_rebuildForPlacement (hw : t.Wf) (hlen : t.len < t.shape.maxInsertions) (w : World W K V) :
    wp (rebuildForPlacement group u x)
      (fun r s => s.2.ledger = w.ledger ∧ (reading group).Readied u t s.1 ∧ s.1.Vacates x r.1 ∧
        r.2 = s.1.membershipSlot x)
      (Refused u t w.ledger) (t, w) := by
  simp only [rebuildForPlacement, wp_bind, wp_get]
  refine wp_mono (wp_resizeWithTransition hw hw.planned (Nat.le_of_lt hlen) .placementRecovery w) ?_
    (fun _ _ h => h)
  rintro _ s ⟨hledger, hr⟩
  have hcapacity : (reading group).capacity s.1 = (reading group).capacity t := by
    simp only [reading, hr.shape]
  refine ⟨hledger, ⟨⟨hr.rearranged, fun _ _ => hr.settled⟩,
    ⟨fun _ => hcapacity, fun hfull => absurd hfull (Nat.ne_of_lt hlen)⟩, ?_⟩, vacates_searchVacancy hr.wf, rfl⟩
  rw [hcapacity]
  have := hw.fits
  simp only [reading, hr.counted.len, hr.entries.length_eq]
  omega

theorem wp_placeAbsentAfterSearch {κ : K ⊕ V → Nat} {t₀ : FunnelTable K V} {vacancy : Option Vacancy}
    {w w₁ : World W K V} (hl : w₁.ledger = w.ledger) (h₀ : (reading group).Readied u t₀ t)
    (hv : t.Vacates x vacancy) :
    wp (placeAbsentAfterSearch group u k v x (t.membershipSlot x) vacancy)
      (fun slot s => (reading group).Added u t₀ s.1 k v x ∧ s.1.storage.Holds slot (k, v) ∧
        s.2.ledger = w.ledger)
      (NotPlaced (reading group) u κ t₀ k v w) (t, w₁) := by
  rw [placeAbsentAfterSearch, wp_bind]
  apply wp_owned_grow h₀.stretched
  rw [wp_bind, wp_get]
  dsimp only
  -- Both branches end in a table with room, the vacancy searched in it and its membership slot.
  have hresolve : ∀ (rebuilt : Bool) (s : FunnelTable K V × World W K V) (vacancy : Option Vacancy),
      s.2.ledger = w.ledger → (reading group).Readied u t₀ s.1 → s.1.Vacates x vacancy →
      wp (s.1.resolveVacancy vacancy)
        (fun r s' => wp (pure (s.1.membershipSlot x, rebuilt, r.1, r.2) :
            Run (FunnelTable K V) W K V (MembershipSlot × Bool × Vacancy × Bool))
          (fun r s' => wp (do
              Exec.modify fun s => (notePlacement r.2.2.2 r.2.1 (s.1.placeNewEntry r.2.2.1 k v r.1
                (controlFingerprint x) r.2.2.2), s.2)
              pure r.2.2.1.slot)
            (fun slot s => (reading group).Added u t₀ s.1 k v x ∧ s.1.storage.Holds slot (k, v) ∧
              s.2.ledger = w.ledger)
            (NotPlaced (reading group) u κ t₀ k v w) s')
          (Refused u t w.ledger) s')
        (Refused u t w.ledger) s := by
    rintro rebuilt s vacancy hledger hr hv
    refine wp_mono (wp_resolveVacancy hr.keeps.wf (entries_lt hr.keeps.wf hr.room) hv s) ?_ (fun _ _ => id)
    rintro ⟨vacancy, exceptional⟩ s' ⟨rfl, slot, hvacancy, htarget⟩
    dsimp only at hvacancy htarget ⊢
    subst hvacancy
    rw [wp_pure, wp_bind, wp_modify, wp_pure]
    refine ⟨added_notePlacement (hr.added (added_place hr.keeps.wf hr.room htarget)), ?_, hledger⟩
    rw [storage_notePlacement]
    refine holds_place.mpr (.inl ⟨rfl, ?_, rfl⟩)
    rw [Wf.capacity hr.keeps.wf]
    exact htarget.lt
  rw [wp_ite]
  refine ⟨fun _ => ?_, fun _ => ?_⟩
  · rw [wp_bind]
    refine wp_mono (wp_rebuildForPlacement h₀.keeps.wf h₀.room w₁) ?_
      (fun _ _ h => ⟨h.1, h.2.1, h.2.2.trans hl⟩)
    rintro ⟨vacancy', membership⟩ s ⟨hledger, hr, hv', hm⟩
    dsimp only at hv' hm ⊢
    subst hm
    rw [wp_bind, wp_get]
    rw [wp_bind]
    exact hresolve _ s vacancy' (hledger.trans hl) (h₀.trans hr) hv'
  · rw [wp_bind, wp_pure, wp_bind, wp_get]
    dsimp only
    rw [wp_bind]
    exact hresolve _ (t, w₁) vacancy hl h₀ hv

end Placement

end FunnelTable

end Opthash.Funnel
