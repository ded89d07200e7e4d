import Opthash.Shell.Keys
import Opthash.Shell.Sweeps

namespace Opthash.HashMap

open Exec Ledger

variable {W K V : Type} {b : TableBackend W K V} {R : Reading b.Table b.Location b.Vacant b.Scan K V}
  {u : User W K V} {κ : K ⊕ V → Nat} {t₀ : b.Table} {w₀ : World W K V}

/-- A drain in progress: the entries at the locations it has not come to are all the table has left. -/
structure Draining (R : Reading b.Table b.Location b.Vacant b.Scan K V) (u : User W K V) (κ : K ⊕ V → Nat)
    (t₀ : b.Table) (w₀ : World W K V) (owed : Nat) (locs : List b.Location) (es : List (K × V)) (scan : b.Scan)
    (t : b.Table) (w : World W K V) : Prop where
  wf : R.Wf t
  capacity : R.capacity t = R.capacity t₀
  sound : ∀ {q : Prop}, R.Sound u q t₀ → R.Sound u q t
  totalSlots : b.totalSlots t = b.totalSlots t₀
  scanning : R.Scanning t scan locs
  nodup : locs.Nodup
  short : locs.length ≤ b.totalSlots t₀
  holds : List.Forall₂ (R.Holds t) locs es
  entries : (R.entries t).Perm es
  suffix : es <:+ R.entries t₀
  untouched : es.length = (R.entries t₀).length → t = t₀
  gone : w.ledger.gone κ + weighEntries κ es + owed = w₀.ledger.gone κ + weighEntries κ (R.entries t₀)
  made : w.ledger.made κ = w₀.ledger.made κ

variable {locs : List b.Location} {es : List (K × V)} {scan : b.Scan} {t : b.Table} {w : World W K V}

theorem draining_scan (hc : Contract R u) (hw : R.Wf t₀) (w : World W K V) :
    ∃ locs, locs.length ≤ b.totalSlots t₀ ∧ Draining R u κ t₀ w 0 locs (R.entries t₀) (b.scan t₀) t₀ w := by
  obtain ⟨locs, es, hscan, hnodup, hholds, rfl, hshort⟩ := hc.scan hw
  exact ⟨locs, hshort, {
    wf := hw
    capacity := rfl
    sound := id
    totalSlots := rfl
    scanning := hscan
    nodup := hnodup
    short := hshort
    holds := hholds
    entries := .refl _
    suffix := List.suffix_refl _
    untouched := fun _ => rfl
    gone := rfl
    made := rfl }⟩

theorem Draining.take (hc : Contract R u) {loc : b.Location} {e : K × V}
    (h : Draining R u κ t₀ w₀ 0 (loc :: locs) (e :: es) scan t w) :
    ∃ scan', b.scanNext t scan = (some loc, scan') ∧ R.Holds t loc e ∧
      Draining R u κ t₀ w₀ (weighEntry κ e) locs es scan' (b.tombstoneSlot loc t) w := by
  have he := holds_cons h.holds
  obtain ⟨hloc, hnodup⟩ := List.nodup_cons.mp h.nodup
  obtain ⟨scan', hscan, hnext⟩ := hc.scanNext_cons h.wf h.scanning
  obtain ⟨hwf, hcapacity, hsound, hperm, hundisturbed⟩ := hc.tombstoneSlot h.wf he
  have hsuffix : es <:+ R.entries t₀ := (List.suffix_cons e es).trans h.suffix
  refine ⟨scan', hscan, he, {
    wf := hwf
    capacity := hcapacity.trans h.capacity
    sound := fun hs => hsound (h.sound hs)
    totalSlots := (hc.totalSlots hundisturbed).trans h.totalSlots
    scanning := hnext _ hwf hundisturbed
    nodup := hnodup
    short := Nat.le_of_succ_le h.short
    holds := holds_later hc hundisturbed hloc (List.forall₂_cons.mp h.holds).2
    entries := (hperm.symm.trans h.entries).cons_inv
    suffix := hsuffix
    untouched := fun hlen => ?_
    gone := ?_
    made := h.made }⟩
  · have := h.suffix.length_le
    rw [List.length_cons] at this
    omega
  · have hgone := h.gone
    rw [weighEntries_cons] at hgone
    omega

theorem Draining.paid {owed : Nat} {w' : World W K V} (h : Draining R u κ t₀ w₀ owed locs es scan t w)
    (hd : User.Dropped κ owed w w') : Draining R u κ t₀ w₀ 0 locs es scan t w' :=
  { h with
    gone := by
      have hgone := h.gone
      rw [hd.gone]
      omega
    made := hd.made.trans h.made }

theorem wp_drainNext_nil (hc : Contract R u) (h : Draining R u κ t₀ w₀ 0 [] es scan t w)
    {Z : Panic → b.Scan × b.Table × World W K V → Prop} :
    wp (drainNext b) (fun r s => r = none ∧ s.2 = (t, w) ∧ Draining R u κ t₀ w₀ 0 [] es s.1 t w) Z (scan, t, w) := by
  obtain ⟨scan', hscan, hnil⟩ := hc.scanNext_nil h.wf h.scanning
  rw [drainNext, wp_bind, wp_get]
  dsimp only
  rw [hscan]
  dsimp only
  rw [wp_bind, wp_modify]
  exact ⟨rfl, rfl, { h with scanning := hnil }⟩

theorem wp_drainNext_cons (hc : Contract R u) {loc : b.Location} {e : K × V}
    (h : Draining R u κ t₀ w₀ 0 (loc :: locs) (e :: es) scan t w)
    {Z : Panic → b.Scan × b.Table × World W K V → Prop} :
    wp (drainNext b)
      (fun r s => r = some e ∧ s.2.2 = w ∧ Draining R u κ t₀ w₀ (weighEntry κ e) locs es s.1 s.2.1 w) Z
      (scan, t, w) := by
  obtain ⟨scan', hscan, he, htaken⟩ := h.take hc
  rw [drainNext, wp_bind, wp_get]
  dsimp only
  rw [hscan]
  dsimp only
  rw [wp_bind, wp_modify, wp_bind, wp_onSnd]
  simp only [slotEntry, wp_bind, wp_get, hc.slotRef he, wp_modify]
  exact ⟨rfl, rfl, htaken⟩

theorem wp_yieldDrained (hc : Contract R u) (h : Draining R u κ t₀ w₀ 0 locs es scan t w) (n : Nat) :
    wp (yieldDrained b n)
      (fun taken s => taken = es.take n ∧ s.2.2.code = w.code ∧ ∃ locs', locs'.length ≤ locs.length ∧
        Draining R u κ t₀ w₀ 0 locs' (es.drop n) s.1 s.2.1 s.2.2)
      (fun _ _ => False) (scan, t, w) := by
  induction n generalizing locs es scan t w with
  | zero => exact ⟨rfl, rfl, locs, Nat.le_refl _, h⟩
  | succ n ih =>
    rw [yieldDrained, wp_bind]
    cases locs with
    | nil =>
      obtain rfl : es = [] := List.forall₂_nil_left_iff.mp h.holds
      refine wp_mono (wp_drainNext_nil hc h) ?_ (fun _ _ => id)
      rintro _ ⟨scan', t', w'⟩ ⟨rfl, hs, hdraining⟩
      cases hs
      refine wp_mono (ih hdraining) ?_ (fun _ _ => id)
      rintro taken s ⟨rfl, hs⟩
      rw [List.take_nil, List.drop_nil] at *
      exact ⟨rfl, hs⟩
    | cons loc locs =>
      cases es with
      | nil => cases h.holds
      | cons e es =>
        refine wp_mono (wp_drainNext_cons hc h) ?_ (fun _ _ => id)
        rintro _ ⟨scan', t', w'⟩ ⟨rfl, rfl, hdraining⟩
        dsimp only at hdraining ⊢
        rw [wp_bind, wp_onSnd, wp_onSnd]
        refine wp_mono (wp_handEntry (κ := κ) e) ?_ (fun _ _ h => h.elim)
        rintro _ w₁ ⟨hd, hcode⟩
        rw [wp_bind]
        refine wp_mono (ih (hdraining.paid hd)) ?_ (fun _ _ => id)
        rintro taken s ⟨rfl, hcode', locs', hshort, hs⟩
        exact ⟨rfl, hcode'.trans hcode, locs', Nat.le_succ_of_le hshort, hs⟩

theorem wp_dropDrained (hc : Contract R u) (h : Draining R u κ t₀ w₀ 0 locs es scan t w) {fuel : Nat}
    (hfuel : locs.length < fuel) :
    wp (dropDrained b u fuel)
      (fun _ s => Draining R u κ t₀ w₀ 0 [] [] s.1 s.2.1 s.2.2)
      (fun p s => User.Burst u p ∧ ¬u.Quiet es w.code ∧ (p ≠ .abort → ∃ locs' es', es'.length < es.length ∧
        Draining R u κ t₀ w₀ 0 locs' es' s.1 s.2.1 s.2.2)) (scan, t, w) := by
  induction fuel generalizing locs es scan t w with
  | zero => omega
  | succ fuel ih =>
    rw [dropDrained, wp_bind]
    cases locs with
    | nil =>
      obtain rfl : es = [] := List.forall₂_nil_left_iff.mp h.holds
      refine wp_mono (wp_drainNext_nil hc h) ?_ (fun _ _ h => h)
      rintro _ ⟨scan', t', w'⟩ ⟨rfl, hs, hdraining⟩
      cases hs
      exact hdraining
    | cons loc locs =>
      cases es with
      | nil => cases h.holds
      | cons e es =>
        refine wp_mono (wp_drainNext_cons hc h) ?_ (fun _ _ h => h)
        rintro _ ⟨scan', t', w'⟩ ⟨rfl, rfl, hdraining⟩
        dsimp only at hdraining ⊢
        rw [wp_bind, wp_onSnd, wp_onSnd]
        refine wp_mono (wp_and (User.wp_dropEntry (κ := κ) e w') (User.wp_dropEntry_quiet e w')) ?_ ?_
        · rintro _ w₁ ⟨hd, hquiet⟩
          refine wp_mono (ih (hdraining.paid hd) (Nat.lt_of_succ_lt_succ hfuel)) (fun _ _ => id) ?_
          rintro p s ⟨hp, hloud, hrest⟩
          refine ⟨hp, fun h => hloud (hquiet es h), fun hne => ?_⟩
          obtain ⟨locs', es', hlt, hs⟩ := hrest hne
          exact ⟨locs', es', Nat.lt_succ_of_lt hlt, hs⟩
        · rintro p w₁ ⟨⟨hp, hd⟩, hloud⟩
          exact ⟨hp, hloud es, fun hne => ⟨locs, es, Nat.lt_succ_self _, hdraining.paid (hd hne)⟩⟩

theorem sound_of_entries_nil (hc : Contract R u) (hw : R.Wf t) (hnil : R.entries t = []) (q : Prop) :
    R.Sound u q t := by
  intro _ loc e he
  have := (hc.mem_entries hw).mpr ⟨loc, he⟩
  rw [hnil] at this
  cases this

structure Emptied (R : Reading b.Table b.Location b.Vacant b.Scan K V) (u : User W K V) (t t' : b.Table) : Prop where
  wf : R.Wf t'
  capacity : R.capacity t' = R.capacity t
  counted : R.Counted t'
  settled : R.Settled t'
  sound : ∀ q, R.Sound u q t'
  entries : R.entries t' = []

theorem emptied_wipeAll (hc : Contract R u) (hw : R.Wf t) (hcap : R.capacity t = R.capacity t₀) :
    Emptied R u t₀ (b.wipeAll t) := by
  obtain ⟨hwf, hcapacity, hcounted, hsettled, hentries⟩ := hc.wipeAll hw
  exact ⟨hwf, hcapacity.trans hcap, hcounted, hsettled, sound_of_entries_nil hc hwf hentries, hentries⟩

/-- What an interrupted drain leaves: some of the entries, and counters that were not settled. Destructors of the
entries after the first `n` interrupt it. -/
def DrainPanic (R : Reading b.Table b.Location b.Vacant b.Scan K V) (u : User W K V) (κ : K ⊕ V → Nat) (t₀ : b.Table)
    (w₀ : World W K V) (n : Nat) (p : Panic) (s : b.Table × World W K V) : Prop :=
  User.Burst u p ∧ ¬u.Quiet ((R.entries t₀).drop n) w₀.code ∧
    (p ≠ .abort → ∃ locs es scan, es.length < (R.entries t₀).length ∧ Draining R u κ t₀ w₀ 0 locs es scan s.1 s.2)

theorem wp_drain (hc : Contract R u) (hw : R.Wf t₀) (n : Nat) :
    wp (drain b u n)
      (fun taken s => taken = (R.entries t₀).take n ∧ Emptied R u t₀ s.1 ∧
        User.Dropped κ (weighEntries κ (R.entries t₀)) w₀ s.2)
      (DrainPanic R u κ t₀ w₀ n) (t₀, w₀) := by
  obtain ⟨locs, hshort, hs⟩ := draining_scan (κ := κ) hc hw w₀
  rw [drain, wp_bind, wp_get]
  dsimp only
  rw [wp_bind, wp_withLocal, wp_bind]
  refine wp_mono (wp_yieldDrained hc hs n) ?_ (fun _ _ h => h.elim)
  rintro taken ⟨scan, t, w⟩ ⟨rfl, hcode, locs', hshort', hdraining⟩
  dsimp only at hdraining hcode
  rw [wp_bind, dropDrain, wp_bind, wp_get]
  dsimp only
  rw [wp_bind]
  have hfuel : locs'.length < b.totalSlots t + 1 := by
    rw [hdraining.totalSlots]
    omega
  refine wp_mono (wp_dropDrained hc hdraining hfuel) ?_ ?_
  · rintro _ ⟨scan', t', w'⟩ hend
    refine ⟨rfl, emptied_wipeAll hc hend.wf hend.capacity, ?_, hend.made⟩
    have hgone := hend.gone
    rw [weighEntries_nil] at hgone
    dsimp only at hgone ⊢
    omega
  · rintro p ⟨scan', t', w'⟩ ⟨hp, hloud, hrest⟩
    refine ⟨hp, hcode ▸ hloud, fun hne => ?_⟩
    obtain ⟨locs'', es'', hlt, hend⟩ := hrest hne
    refine ⟨locs'', es'', scan', ?_, hend⟩
    rw [List.length_drop] at hlt
    omega

theorem wp_leakDrain (hc : Contract R u) (hw : R.Wf t₀) (n : Nat) :
    wp (leakDrain b n)
      (fun taken s => taken = (R.entries t₀).take n ∧ ∃ locs scan,
        Draining R u κ t₀ w₀ 0 locs ((R.entries t₀).drop n) scan s.1 s.2)
      (fun _ _ => False) (t₀, w₀) := by
  obtain ⟨locs, -, hs⟩ := draining_scan (κ := κ) hc hw w₀
  rw [leakDrain, wp_bind, wp_get]
  dsimp only
  rw [wp_bind, wp_withLocal]
  refine wp_mono (wp_yieldDrained hc hs n) ?_ (fun _ _ h => h.elim)
  rintro taken ⟨scan, t, w⟩ ⟨rfl, -, locs', -, hdraining⟩
  exact ⟨rfl, locs', scan, hdraining⟩

theorem wp_iter (hc : Contract R u) (hw : R.Wf t) :
    wp (iter b) (fun es s => es = R.entries t ∧ s = (t, w)) (fun _ _ => False) (t, w) := by
  obtain ⟨locs, es, hscan, -, hholds, hentries, hshort⟩ := hc.scan hw
  have hfrom : ∀ {fuel : Nat} {scan : b.Scan} {locs : List b.Location} {es : List (K × V)}, R.Scanning t scan locs →
      List.Forall₂ (R.Holds t) locs es → locs.length < fuel →
      wp (iterFrom b fuel scan) (fun r s => r = es ∧ s = (t, w)) (fun _ _ => False) (t, w) := by
    intro fuel
    induction fuel with
    | zero => exact fun _ _ h => absurd h (Nat.not_lt_zero _)
    | succ fuel ih =>
      intro scan locs es hs hholds hfuel
      rw [iterFrom, wp_bind, wp_get]
      dsimp only
      cases hholds with
      | nil =>
        obtain ⟨scan', hnext, -⟩ := hc.scanNext_nil hw hs
        rw [hnext]
        exact ⟨rfl, rfl⟩
      | @cons loc e locs es he hrest =>
        obtain ⟨scan', hnext, hlater⟩ := hc.scanNext_cons hw hs
        rw [hnext]
        dsimp only
        rw [wp_bind, wp_slotEntry hc he, wp_bind]
        refine wp_mono (ih (hlater t hw (hc.undisturbed_refl loc)) hrest (Nat.lt_of_succ_lt_succ hfuel)) ?_
          (fun _ _ => id)
        rintro r s ⟨rfl, rfl⟩
        exact ⟨rfl, rfl⟩
  rw [iter, wp_bind, wp_get]
  dsimp only
  rw [hentries]
  exact hfrom hscan hholds (Nat.lt_succ_of_le hshort)

end Opthash.HashMap
