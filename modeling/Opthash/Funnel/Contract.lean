import Opthash.Backends
import Opthash.Funnel.Methods
import Opthash.Funnel.Settle
import Opthash.Raw.Loops
import Opthash.Raw.Ownership

namespace Opthash.Funnel

open Exec FunnelTable Ledger

variable {W K V : Type} {group : GroupBackend} {u : User W K V} {q : Prop} {t t' : FunnelTable K V} {κ : K ⊕ V → Nat}
  {w : World W K V}

namespace FunnelTable

section Scan

theorem scanning_scan : (reading group).Scanning t (t.scan group) t.storage.occupied := by
  unfold scan
  split
  · exact ⟨OccupiedIndices.valid_new, OccupiedIndices.pending_new _⟩
  · rfl

/-- The slots a scan does not come back to. -/
def FunnelScan.Passed (group : GroupBackend) : FunnelScan → Nat → Prop
  | .dense next, slot => slot < next
  | .sparse cursor, slot => slot < cursor.next group

theorem scanning_congr {scan : FunnelScan} {slots : List Nat} (hcap : t'.storage.capacity = t.storage.capacity)
    (hsame : ∀ slot, ¬scan.Passed group slot → t'.storage.Occ slot = t.storage.Occ slot)
    (h : (reading group).Scanning t scan slots) : (reading group).Scanning t' scan slots := by
  cases scan with
  | dense next => exact (t.storage.occupiedFrom_congr hcap fun i hi => hsame i (Nat.not_lt_of_le hi)).trans h
  | sparse cursor =>
    exact ⟨h.1, (OccupiedIndices.pending_congr hcap fun i hi => hsame i (Nat.not_lt_of_le hi)).trans h.2⟩

theorem scanNext_spec {scan : FunnelScan} {slots : List Nat} (hcap : t.storage.capacity = t.shape.n)
    (hr : t.storage.Readable group true) (h : (reading group).Scanning t scan slots) :
    (t.scanNext group scan).1 = slots.head? ∧ (reading group).Scanning t (t.scanNext group scan).2 slots.tail ∧
      ∀ slot, (t.scanNext group scan).1 = some slot ∨ scan.Passed group slot →
        (t.scanNext group scan).2.Passed group slot := by
  cases scan with
  | dense next =>
    obtain rfl : t.storage.occupiedFrom next = slots := h
    have hfind : (List.range' next (t.shape.n - next)).find? (fun slot => isOccupied (t.storage.ctrl slot)) =
        (t.storage.occupiedFrom next).head? := by
      rw [Region.occupiedFrom, List.head?_filter, hcap]
      rfl
    rw [scanNext, hfind]
    cases hslots : t.storage.occupiedFrom next with
    | nil =>
      refine ⟨rfl, t.storage.occupiedFrom_eq_nil (by rw [hcap]; exact Nat.le_max_right ..), ?_⟩
      rintro slot (hnone | hlt)
      · cases hnone
      · exact Nat.lt_of_lt_of_le hlt (Nat.le_max_left ..)
    | cons first rest =>
      refine ⟨rfl, (Region.occupiedFrom_eq_cons hslots).2, ?_⟩
      have hfirst : first ∈ t.storage.occupiedFrom next := hslots ▸ List.mem_cons_self
      have hle := (t.storage.mem_occupiedFrom.mp hfirst).1
      rintro slot (hyield | hlt)
      · obtain rfl := Option.some.inj hyield
        exact Nat.lt_succ_self first
      · exact Nat.lt_succ_of_lt (Nat.lt_of_lt_of_le hlt hle)
  | sparse cursor =>
    obtain ⟨hvalid, rfl⟩ := h
    obtain ⟨hhead, htail, hvalid', hslot⟩ := OccupiedIndices.step_spec hr hvalid
    refine ⟨hhead, ⟨hvalid', htail⟩, ?_⟩
    rintro slot (hyield | hlt)
    · exact hslot slot hyield
    · exact Nat.lt_of_lt_of_le hlt (OccupiedIndices.next_le_step hr)

theorem scanNext_nil {scan : FunnelScan} (hw : t.Wf) (h : (reading group).Scanning t scan []) :
    ∃ scan', t.scanNext group scan = (none, scan') ∧ (reading group).Scanning t scan' [] := by
  obtain ⟨hhead, htail, -⟩ := scanNext_spec hw.capacity hw.scannable.readable h
  exact ⟨_, Prod.ext hhead rfl, htail⟩

theorem scanNext_cons {scan : FunnelScan} {slot : Nat} {rest : List Nat} (hw : t.Wf)
    (h : (reading group).Scanning t scan (slot :: rest)) :
    ∃ scan', t.scanNext group scan = (some slot, scan') ∧
      ∀ t', t'.Wf → (reading group).Undisturbed t slot t' → (reading group).Scanning t' scan' rest := by
  obtain ⟨hhead, htail, hpassed⟩ := scanNext_spec hw.capacity hw.scannable.readable h
  refine ⟨_, Prod.ext hhead rfl, ?_⟩
  rintro t' - ⟨hcap, -, hothers⟩
  refine scanning_congr hcap (fun i hi => (hothers i ?_).1) htail
  rintro rfl
  exact hi (hpassed i (.inl hhead))

end Scan

section Clear

theorem wp_clear (hw : t.Wf) :
    wp (clear group u)
      (fun _ s => (reading group).Steady u t s.1 ∧ s.1.storage.entries = [] ∧ s.1.storage.Blank ∧
        Drained u κ (weighEntries κ t.storage.entries) w s.2)
      (fun e s => User.Burst u e ∧ (e ≠ .abort → (reading group).Keeps u t s.1 ∧
        s.1.shape.maxInsertions = t.shape.maxInsertions ∧
        ∃ taken, t.storage.entries.Perm (taken ++ s.1.storage.entries) ∧
          User.Dropped κ (weighEntries κ taken) w s.2)) (t, w) := by
  have hwiped : ∀ t' : FunnelTable K V, t'.Wf → t'.shape = t.shape → (reading group).Steady u t t'.wipeAll :=
    fun t' hw' hshape => ⟨⟨wf_wipeAll hw', fun _ => counted_wipeAll, fun _ => sound_of_entries_nil entries_wipeAll⟩,
      congrArg FunnelShape.maxInsertions hshape, fun _ _ => .of_clean rfl rfl⟩
  rw [clear, wp_ite]
  refine ⟨fun _ => ?_, fun hneeds => ⟨hwiped t hw rfl, entries_wipeAll, blank_wipeAll, rfl, Nat.le_add_right ..,
    fun h => absurd h hneeds⟩⟩
  rw [wp_bind]
  have htake : ∀ taken t' slot e, (reading group).Keeps u t t' ∧ t'.shape = t.shape ∧
        t.storage.entries.Perm (taken ++ t'.storage.entries) →
      t'.storage.Holds slot e → (reading group).Keeps u t { t' with
          storage := t'.storage.setControl slot ctrlTombstone, len := t'.len - 1
          tombstones := wrappingInc usizeMax t'.tombstones } ∧ t'.shape = t.shape ∧
        t.storage.entries.Perm (taken ++ [e] ++ (t'.storage.setControl slot ctrlTombstone).entries) := by
    rintro taken t' slot e ⟨hkeeps, hshape, hperm⟩ he
    have hw' : t'.Wf := hkeeps.wf
    have hlen := len_pos hw' he
    have htaken : t'.Tombstoned slot { t' with
        storage := t'.storage.setControl slot ctrlTombstone, len := t'.len - 1
        tombstones := wrappingInc usizeMax t'.tombstones } := ⟨rfl, rfl, rfl, rfl, rfl, rfl⟩
    refine ⟨hkeeps.trans ⟨htaken.wf hw' he (by dsimp only; omega) (by dsimp only; omega),
      htaken.counted hw' he rfl rfl, htaken.sound⟩, hshape, ?_⟩
    rw [List.append_assoc]
    exact hperm.trans ((htaken.entries he).append_left taken)
  refine wp_mono (wp_takeOccupied (κ := κ) FunnelTable.storage
    (fun slot t => { t with
      storage := t.storage.setControl slot ctrlTombstone, len := t.len - 1
      tombstones := wrappingInc usizeMax t.tombstones })
    (fun taken t' => (reading group).Keeps u t t' ∧ t'.shape = t.shape ∧
      t.storage.entries.Perm (taken ++ t'.storage.entries))
    (fun _ => rfl) isOccupied_ctrlTombstone (fun _ _ => rfl)
    (fun _ t' h => ⟨Wf.scannable h.1.wf, Wf.filled h.1.wf⟩) htake
    (show (reading group).Keeps u t t ∧ t.shape = t.shape ∧ t.storage.entries.Perm ([] ++ t.storage.entries) from
      ⟨.refl hw, rfl, .refl _⟩) (Gains.refl _)) ?_ ?_
  · rintro _ ⟨t', w'⟩ ⟨taken, ⟨hkeeps, hshape, hperm⟩, hdropped, hnil⟩
    dsimp only at hkeeps hshape hperm hdropped hnil
    rw [hnil, List.append_nil] at hperm
    rw [wp_modify, weighEntries_perm hperm]
    exact ⟨hwiped t' hkeeps.wf hshape, entries_wipeAll, blank_wipeAll, hdropped.made, Nat.le_of_eq hdropped.gone,
      fun _ => hdropped.gone⟩
  · rintro p ⟨t', w'⟩ ⟨hp, hrest⟩
    refine ⟨hp, fun hne => ?_⟩
    obtain ⟨taken, ⟨hkeeps, hshape, hperm⟩, hdropped⟩ := hrest hne
    exact ⟨hkeeps, congrArg FunnelShape.maxInsertions hshape, taken, hperm, hdropped⟩

end Clear

section Clone

variable {storage : Region (K × V)}

theorem wf_clone (hw : t.Wf) (hc : ClonedRegion u t.storage storage) : { t with storage }.Wf where
  planned := hw.planned
  capacity := hc.capacity.trans hw.capacity
  small := hw.small
  filled := hc.filled
  padded := hc.tail
  fits := by
    rw [← hc.entries.length_eq]
    exact hw.fits
  limit := hw.limit
  words := hw.words
  bins := hw.bins

theorem counted_clone (hc : ClonedRegion u t.storage storage) (h : t.Counted) :
    { t with storage }.Counted where
  len := h.len.trans hc.entries.length_eq
  tombstones := h.tombstones.trans hc.tombstoneCount.symm

theorem sound_clone (hw : t.Wf) (hc : ClonedRegion u t.storage storage) (h : t.Sound u q)
    (hhash : u.ClonesHash) : { t with storage }.Sound u q := by
  intro hd slot e' he'
  obtain ⟨e, he, hk, -⟩ := hc.holds he'
  obtain ⟨x, hx, hp⟩ := h hd slot e he
  have hext : t.Extends { t with storage } := by
    refine ⟨rfl, rfl, rfl, fun _ => id, id, fun i hi => ?_⟩
    rw [hc.ctrl] at hi
    split at hi
    · exact hi
    · exact hw.padded i (Nat.le_of_not_lt (by assumption))
  exact ⟨x, hhash _ _ x hk hx, hp.mono hext ((hc.ctrl slot).trans (if_pos he.1))⟩

theorem wp_tryFromShape {shape : FunnelShape} {r : ReserveFraction} {R : Panic → World W K V → Prop} :
    wp (tryFromShape group u shape r : Exec Panic (World W K V) (Except TryReserveError (FunnelTable K V)))
      (fun res w' => w'.ledger = w.ledger ∧ ∀ t, res = .ok t →
        t = fresh shape r (.empty shape.n) (.zeroed (Membership.wordCount shape.n))) R w := by
  rw [tryFromShape, wp_bind]
  refine wp_mono (wp_tryAllocateStorage shape.n w) ?_ (fun _ _ => id)
  rintro (e | ⟨storage, membership⟩) w' ⟨hledger, hnew⟩
  · exact ⟨hledger, fun _ h => by cases h⟩
  · obtain ⟨rfl, rfl, -⟩ := hnew storage membership rfl
    refine ⟨hledger, fun _ h => ?_⟩
    cases h
    rfl

theorem wp_cloneTable (hw : t.Wf) :
    wp (cloneTable group u t)
      (fun t' w' => t'.Wf ∧ t'.shape = t.shape ∧ (t.Counted → t'.Counted) ∧ (t.Settled group → t'.Settled group) ∧
        (∀ {q : Prop}, t.Sound u q → u.ClonesHash → t'.Sound u q) ∧
        List.Forall₂ u.Clones t.storage.entries t'.storage.entries ∧
        w'.ledger.gone κ = w.ledger.gone κ ∧
        w'.ledger.made κ = w.ledger.made κ + weighEntries κ t'.storage.entries)
      (fun e w' => e.Blamed (¬u.Calm) ∧ (e ≠ .abort → ∃ made,
        w'.ledger.made κ = w.ledger.made κ + made ∧ w'.ledger.gone κ ≤ w.ledger.gone κ + made ∧
        (u.needsDrop = true → w'.ledger.gone κ = w.ledger.gone κ + made))) w := by
  rw [cloneTable, wp_bind, World.wp_call]
  refine wp_mono (User.wp_total (u := u) (fun h => h.cloneBuilder) w.code) ?_
    (fun _ code h => ⟨.user h, fun _ => ⟨0, rfl, Nat.le_refl _, fun _ => rfl⟩⟩)
  intro _ code _
  rw [wp_bind]
  refine wp_mono wp_tryFromShape ?_ (fun _ _ => id)
  rintro (e | cloned) w₁ ⟨hledger, hnew⟩
  · exact ⟨.exhausted (.clone _), fun _ => ⟨0, by rw [hledger]; rfl, by rw [hledger]; exact Nat.le_refl _,
      fun _ => by rw [hledger]; rfl⟩⟩
  · obtain rfl := hnew cloned rfl
    dsimp only [fresh]
    rw [wp_bind, wp_withLocal]
    apply User.wp_cleanup (u := u)
    · exact fun h _ => ⟨.abort h, fun h => absurd rfl h⟩
    rw [← hw.capacity]
    refine wp_mono (wp_cloneRegionFrom (κ := κ) hw.scannable hw.filled) ?_ ?_
    · rintro _ ⟨storage, w₂⟩ ⟨hc, hgone, hmade⟩
      have hwords : Membership.wordCount t.storage.capacity = t.membership.words := by
        rw [hw.capacity, hw.words]
      dsimp only at hc hgone hmade ⊢
      rw [wp_bind, copyMembershipFrom, MembershipRegion.zeroed, wp_ite]
      refine ⟨fun h => absurd hwords h, fun _ => ?_⟩
      rw [wp_pure, wp_pure]
      dsimp only
      rw [hwords]
      refine ⟨wf_clone hw hc, rfl, counted_clone hc, id, sound_clone hw hc, hc.entries, ?_, ?_⟩
      · rw [hgone, hledger]
      · rw [hmade, hledger]
    · rintro p ⟨storage, w₂⟩ ⟨hp, hscan, hfilled, hundone⟩
      dsimp only at hscan hfilled hundone
      refine ⟨fun _ => ⟨.abort hp.2, fun h => absurd rfl h⟩, fun hne => ?_⟩
      obtain ⟨n, hgone, hmade⟩ := (hundone hne).extra
      rw [hledger] at hgone hmade
      simp only [wp_bind, wp_get, wp_onSnd]
      have hregions : ∀ r ∈ [storage], r.Scannable true ∧ r.Filled := by
        intro r hr
        rw [List.mem_singleton.mp hr]
        exact ⟨hscan, hfilled⟩
      refine wp_mono (wp_dropValues (κ := κ) hregions) ?_ (fun _ _ h => h.1.2)
      intro _ w₃ hdrained
      rw [List.flatMap_singleton] at hdrained
      have hle := hdrained.le
      refine ⟨hp.blamed, fun _ => ⟨n + weighEntries κ storage.entries, ?_, ?_, fun hneeds => ?_⟩⟩
      · rw [hdrained.made, hmade, Nat.add_assoc]
      · rw [hgone] at hle
        rw [← Nat.add_assoc]
        exact hle
      · rw [hdrained.eq hneeds, hgone, Nat.add_assoc]

end Clone

end FunnelTable

section Contract

theorem wp_tryResize {needed newCapacity : Nat} (hw : t.Wf) (hneeded : t.len ≤ needed)
    (hgrow : t.nextGrowthSlots needed = some newCapacity) :
    wp (tryResize group u newCapacity)
      (fun r s => (match r with
        | .ok _ => (reading group).Refitted u needed t s.1
        | .error _ => s.1 = t) ∧ s.2.ledger = w.ledger)
      (fun e s => u.Unwound e ∧ s.1 = t ∧ s.2.ledger = w.ledger) (t, w) := by
  obtain ⟨shape, hshape, rfl, hfit, -⟩ := nextGrowthSlots_spec hgrow
  simp only [tryResize, wp_bind, wp_get]
  rw [show FunnelShape.fromSlots shape.n t.reserveFraction = .ok shape from hshape]
  refine wp_mono (wp_tryResizeTo hw hshape (by omega) .explicitResize w) ?_ (fun _ _ => id)
  rintro (e | _) s ⟨hledger, hr⟩
  · exact ⟨hr, hledger⟩
  · exact ⟨hr.refitted hfit, hledger⟩

theorem wp_shrinkTo (hw : t.Wf) (minCapacity : Nat) :
    wp (shrinkTo group u minCapacity)
      (fun _ s => (reading group).Rearranged u t s.1 ∧ (t.Settled group → s.1.Settled group) ∧ s.2.ledger = w.ledger)
      (fun e s => Halted u e ∧ s.1 = t ∧ s.2.ledger = w.ledger) (t, w) := by
  have hresize : ∀ {shape : FunnelShape}, shape.Planned t.reserveFraction →
      t.len ≤ shape.maxInsertions → wp (resizeWithTransition group u shape.n .explicitResize)
        (fun _ s => (reading group).Rearranged u t s.1 ∧ (t.Settled group → s.1.Settled group) ∧ s.2.ledger = w.ledger)
        (fun e s => Halted u e ∧ s.1 = t ∧ s.2.ledger = w.ledger) (t, w) := by
    intro shape hshape hfit
    refine wp_mono (wp_resizeWithTransition hw hshape hfit .explicitResize w) ?_ (fun _ _ => id)
    exact fun _ s ⟨hledger, hr⟩ => ⟨hr.rearranged, fun _ => hr.settled, hledger⟩
  simp only [shrinkTo, wp_bind, wp_get, wp_ite]
  constructor
  · rintro ⟨hlen, -⟩
    refine ⟨fun _ => ?_, fun _ => ⟨.refl hw, id, rfl⟩⟩
    exact hresize (FunnelShape.planned_empty _) (Nat.le_of_eq hlen)
  · intro _
    cases hbudget : FunnelShape.forInsertBudget (max t.len minCapacity) t.reserveFraction with
    | error e => exact ⟨.inr .capacity, rfl, rfl⟩
    | ok shape =>
      obtain ⟨hfit, hplanned⟩ := FunnelShape.forInsertBudget_spec hbudget
      rw [orPanic, wp_pure, wp_ite]
      exact ⟨fun _ => hresize hplanned (Nat.le_trans (Nat.le_max_left ..) hfit), fun _ => ⟨.refl hw, id, rfl⟩⟩

theorem maxInsertions_lt (hw : t.Wf) : t.shape.maxInsertions < usizeMax := by
  apply Nat.lt_of_le_of_lt (FunnelShape.maxInsertions_le hw.shape)
  apply hw.small.trans
  decide

theorem contract (group : GroupBackend) (u : User W K V) : Contract (b := Funnel.backend group u) (reading group) u where
  mem_entries := fun _ => Region.mem_entries
  slotRef := fun he => he.2.2
  len_eq := fun _ => rfl
  capacity_eq := fun _ => rfl
  limit := fun hw => hw.limit
  capacity_lt := fun hw => maxInsertions_lt hw
  len_le := fun hw => hw.fits
  len := fun hc => hc.len
  find := by
    intro t J hJ hw k x w hc
    refine wp_mono (wp_findLocation hw hJ ⟨rfl, rfl, hc⟩) ?_ (fun _ _ => id)
    rintro r s ⟨⟨ht, hledger, hcode⟩, hr⟩
    refine ⟨ht, hledger, hcode, ?_⟩
    cases r <;> exact hr
  findForEntry := by
    intro t hw k x w
    refine wp_mono (wp_findForEntry hw eqStable_true ⟨rfl, rfl, trivial⟩) ?_ (fun _ _ => id)
    rintro r s ⟨⟨ht, hledger, -⟩, hr⟩
    refine ⟨ht, hledger, ?_⟩
    cases r <;> exact hr
  insertForVacant := fun hw hv κ k v w => wp_insertForVacant hw hv
  insert := fun hw κ k v x w => wp_insert hw
  remove := fun hw he κ w => wp_remove hw he
  writeValue := by
    intro t slot e v hw he
    refine ⟨keeps_replaceValue hw he, entries_replaceValue he, holds_replaceValue he |>.mpr (.inl ⟨rfl, rfl⟩), rfl,
      rfl, fun i hi => ⟨rfl, ?_⟩⟩
    exact (Region.slot_setSlot i).trans (if_neg hi)
  extractFinish := by
    intro t slot e hw he
    refine ⟨keeps_extractFinish hw he, rfl, tombstoned_extractFinish.entries he, rfl, rfl, fun i hi => ⟨?_, rfl⟩⟩
    exact (Region.occ_setControl isOccupied_ctrlTombstone i).trans (if_neg hi)
  tombstoneSlot := by
    intro t slot e hw he
    have htaken : t.Tombstoned slot (t.tombstoneSlot slot) := tombstoned_tombstoneSlot
    refine ⟨htaken.wf hw he (Nat.le_succ _) (Nat.le_refl _), rfl, htaken.sound, htaken.entries he, rfl, rfl,
      fun i hi => ⟨?_, rfl⟩⟩
    exact (Region.occ_setControl isOccupied_ctrlTombstone i).trans (if_neg hi)
  undisturbed_refl := fun _ => ⟨rfl, rfl, fun _ _ => ⟨rfl, rfl⟩⟩
  undisturbed_trans := fun h h' => ⟨h'.1.trans h.1, h'.2.1.trans h.2.1, fun i hi =>
    ⟨(h'.2.2 i hi).1.trans (h.2.2 i hi).1, (h'.2.2 i hi).2.trans (h.2.2 i hi).2⟩⟩
  undisturbed := by
    rintro t t' slot i e ⟨hcap, -, hothers⟩ hi ⟨hlt, hocc, hslot⟩
    obtain ⟨ho, hs⟩ := hothers i hi
    exact ⟨hcap ▸ hlt, ho ▸ hocc, hs ▸ hslot⟩
  totalSlots := fun h => h.2.1
  finishDeferredRemovals := by
    intro t hw w
    apply wp_mono (wp_settleAfterDeletes hw)
    · rintro _ s ⟨hmended, -, hshape, hledger⟩
      exact ⟨hmended, congrArg FunnelShape.n hshape, hledger⟩
    · rintro e s ⟨he, hunsettled, hshape, hledger⟩
      exact ⟨he, hunsettled, congrArg FunnelShape.n hshape, hledger⟩
  scan := by
    intro t hw
    refine ⟨t.storage.occupied, t.storage.entries, scanning_scan, t.storage.occupiedFrom_nodup 0,
      Region.holds_occupied hw.filled, rfl, ?_⟩
    have hle := t.storage.occupiedFrom_length_le 0
    rwa [hw.capacity] at hle
  scanNext_nil := scanNext_nil
  scanNext_cons := scanNext_cons
  resize := by
    intro t needed newCapacity hw hneeded hgrow w
    obtain ⟨shape, hshape, rfl, hfit, -⟩ := nextGrowthSlots_spec hgrow
    refine wp_mono (wp_resizeWithTransition hw hshape (Nat.le_trans hneeded hfit) .explicitResize w) ?_
      (fun _ _ => id)
    exact fun _ s ⟨hledger, hr⟩ => ⟨hr.refitted hfit, hledger⟩
  tryResize := fun hw hneeded hgrow w => wp_tryResize hw hneeded hgrow
  shrinkTo := fun hw minCapacity w => wp_shrinkTo hw minCapacity
  clear := fun hw κ w => wp_clear hw
  wipeAll := fun hw => ⟨wf_wipeAll hw, rfl, counted_wipeAll, .of_clean rfl rfl, entries_wipeAll⟩
  cloneTable := by
    intro t hw κ w
    refine wp_mono (wp_cloneTable hw) ?_ (fun _ _ => id)
    exact fun t' w' ⟨hwf, hshape, h⟩ => ⟨hwf, congrArg FunnelShape.maxInsertions hshape, h⟩
  dropTable := by
    intro t hw κ w
    have hregions : ∀ r ∈ [t.storage], r.Scannable true ∧ r.Filled := by
      intro r hr
      rw [List.mem_singleton.mp hr]
      exact ⟨hw.scannable, hw.filled⟩
    refine wp_mono (wp_dropValues (κ := κ) hregions) ?_ ?_
    · intro _ w' h
      rwa [List.flatMap_singleton] at h
    · rintro p w' ⟨hp, h⟩
      rw [List.flatMap_singleton] at h
      exact ⟨hp, h⟩

end Contract

end Opthash.Funnel
