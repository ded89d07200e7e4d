import Opthash.Shell.Drains

namespace Opthash.HashMap

open Exec Ledger

variable {W K V : Type} {b : TableBackend W K V} {R : Reading b.Table b.Location b.Vacant b.Scan K V}
  {u : User W K V} {κ : K ⊕ V → Nat}

/-- An iteration of `t` that has still to come to the entries `es`; it has come past `kept` and left them. -/
structure Underway (R : Reading b.Table b.Location b.Vacant b.Scan K V) (kept es : List (K × V)) (t : b.Table)
    (scan : b.Scan) : Prop where
  wf : R.Wf t
  visits : ∃ locs, R.Scanning t scan locs ∧ locs.Nodup ∧ locs.length ≤ b.totalSlots t ∧
    List.Forall₂ (R.Holds t) locs es
  entries : (R.entries t).Perm (kept ++ es)

variable {kept es : List (K × V)} {e : K × V} {t : b.Table} {scan : b.Scan} {w : World W K V}

theorem underway_scan (hc : Contract R u) (hw : R.Wf t) : Underway R [] (R.entries t) t (b.scan t) := by
  obtain ⟨locs, es, hscan, hnodup, hholds, rfl, hshort⟩ := hc.scan hw
  exact ⟨hw, ⟨locs, hscan, hnodup, hshort, hholds⟩, .refl _⟩

theorem Underway.length_le (h : Underway R kept es t scan) : es.length ≤ b.totalSlots t := by
  obtain ⟨locs, -, -, hshort, hholds⟩ := h.visits
  rwa [← hholds.length_eq]

theorem Underway.step_nil (hc : Contract R u) (h : Underway R kept [] t scan) :
    ∃ scan', b.scanNext t scan = (none, scan') ∧ Underway R kept [] t scan' := by
  obtain ⟨locs, hscan, hnodup, hshort, hholds⟩ := h.visits
  obtain rfl := List.forall₂_nil_right_iff.mp hholds
  obtain ⟨scan', hnext, hscan'⟩ := hc.scanNext_nil h.wf hscan
  exact ⟨scan', hnext, h.wf, ⟨[], hscan', hnodup, hshort, hholds⟩, h.entries⟩

theorem Underway.step_cons (hc : Contract R u) (h : Underway R kept (e :: es) t scan) :
    ∃ loc scan', b.scanNext t scan = (some loc, scan') ∧ R.Holds t loc e ∧ Underway R (kept ++ [e]) es t scan' ∧
      Underway R kept es (b.tombstoneSlot loc t) scan' := by
  obtain ⟨locs, hscan, hnodup, hshort, hholds⟩ := h.visits
  cases hholds with
  | @cons loc _ locs _ he hlater =>
    obtain ⟨hloc, hnodup⟩ := List.nodup_cons.mp hnodup
    obtain ⟨scan', hnext, hscan'⟩ := hc.scanNext_cons h.wf hscan
    obtain ⟨hwf, -, -, hperm, hundisturbed⟩ := hc.tombstoneSlot h.wf he
    have hshort' : locs.length ≤ b.totalSlots t := Nat.le_of_succ_le hshort
    refine ⟨loc, scan', hnext, he, ⟨h.wf, ⟨locs, ?_, hnodup, hshort', hlater⟩, ?_⟩, ⟨hwf, ⟨locs, ?_, hnodup, ?_, ?_⟩, ?_⟩⟩
    · exact hscan' t h.wf (hc.undisturbed_refl loc)
    · rw [List.append_assoc]
      exact h.entries
    · exact hscan' _ hwf hundisturbed
    · rwa [hc.totalSlots hundisturbed]
    · exact holds_later hc hundisturbed hloc hlater
    · exact (hperm.symm.trans (h.entries.trans List.perm_middle)).cons_inv

theorem wp_intoIter_next (hc : Contract R u) {i : IntoIter b} (h : Underway R [] es i.table i.scan) :
    wp (IntoIter.next b)
      (fun r s => r = es.head? ∧ Underway R [] es.tail s.1.table s.1.scan ∧ s.2 = w ∧
        s.1.remaining = if es = [] then i.remaining else wrappingDec usizeMax i.remaining)
      (fun _ _ => False) (i, w) := by
  rw [IntoIter.next, wp_bind, wp_get]
  dsimp only
  cases es with
  | nil =>
    obtain ⟨scan', hnext, hunderway⟩ := h.step_nil hc
    rw [hnext]
    dsimp only
    rw [wp_bind, wp_modify]
    exact ⟨rfl, hunderway, rfl, rfl⟩
  | cons e es =>
    obtain ⟨loc, scan', hnext, he, -, hunderway⟩ := h.step_cons hc
    rw [hnext]
    dsimp only
    rw [wp_bind, wp_modify, wp_bind, hc.slotRef he, expect, wp_pure, wp_bind, wp_modify]
    exact ⟨rfl, hunderway, rfl, rfl⟩

theorem wp_drainNext (hc : Contract R u) (h : Underway R [] es t scan) :
    wp (drainNext b) (fun r s => r = es.head? ∧ Underway R [] es.tail s.2.1 s.1 ∧ s.2.2 = w) (fun _ _ => False)
      (scan, t, w) := by
  rw [drainNext, wp_bind, wp_get]
  dsimp only
  cases es with
  | nil =>
    obtain ⟨scan', hnext, hunderway⟩ := h.step_nil hc
    rw [hnext]
    dsimp only
    rw [wp_bind, wp_modify]
    exact ⟨rfl, hunderway, rfl⟩
  | cons e es =>
    obtain ⟨loc, scan', hnext, he, -, hunderway⟩ := h.step_cons hc
    rw [hnext]
    dsimp only
    rw [wp_bind, wp_modify, wp_bind, wp_onSnd]
    simp only [slotEntry, wp_bind, wp_get, hc.slotRef he, wp_modify]
    exact ⟨rfl, hunderway, rfl⟩

theorem wp_dropDrained_underway (hc : Contract R u) (h : Underway R [] es t scan) {fuel : Nat} (hfuel : es.length < fuel) :
    wp (dropDrained b u fuel)
      (fun _ s => Underway R [] [] s.2.1 s.1 ∧ User.Dropped κ (weighEntries κ es) w s.2.2)
      (fun p s => p ≠ .abort → ∃ taken es', es = taken ++ es' ∧ Underway R [] es' s.2.1 s.1 ∧
        User.Dropped κ (weighEntries κ taken) w s.2.2) (scan, t, w) := by
  induction fuel generalizing es scan t w with
  | zero => omega
  | succ fuel ih =>
    rw [dropDrained, wp_bind]
    apply wp_mono (wp_drainNext hc h) ?_ (fun _ _ h => h.elim)
    rintro _ ⟨scan', t', w'⟩ ⟨rfl, hunderway, rfl⟩
    cases es with
    | nil => exact ⟨hunderway, Gains.refl _⟩
    | cons e es =>
      dsimp only [List.head?_cons, List.tail_cons] at hunderway ⊢
      rw [wp_bind, wp_onSnd, wp_onSnd]
      apply wp_mono (User.wp_dropEntry (κ := κ) e w')
      · intro _ w₁ hd
        apply wp_mono (ih hunderway (Nat.lt_of_succ_lt_succ hfuel))
        · rintro _ s ⟨hend, hd'⟩
          rw [weighEntries_cons]
          exact ⟨hend, hd.trans hd'⟩
        · intro p s hrest hne
          obtain ⟨taken, es', rfl, hend, hd'⟩ := hrest hne
          refine ⟨e :: taken, es', rfl, hend, ?_⟩
          rw [weighEntries_cons]
          exact hd.trans hd'
      · rintro p w₁ ⟨-, hd⟩ hne
        refine ⟨[e], es, rfl, hunderway, ?_⟩
        rw [weighEntries_cons, weighEntries_nil]
        exact hd hne

theorem Underway.sweeping (pred : Predicate K V) (h : Underway R kept es t scan) (seen : List (K × V)) :
    ∃ locs, Sweeping R u κ pred t w 0 kept locs es ⟨scan, false, seen⟩ t w := by
  obtain ⟨locs, hscan, hnodup, hshort, hholds⟩ := h.visits
  exact ⟨locs, {
    keeps := .refl h.wf
    capacity := rfl
    totalSlots := rfl
    unfinished := rfl
    scanning := hscan
    nodup := hnodup
    short := hshort
    holds := hholds
    entries := h.entries
    keys := (h.entries.map _).symm.subperm
    gone := fun _ => by rw [weighEntries_perm h.entries, Nat.add_zero]
    made := rfl }⟩

theorem Sweeping.underway {pred : Predicate K V} {t₀ : b.Table} {w₀ : World W K V} {owed : Nat}
    {locs : List b.Location} {x : ExtractScan b.Scan K V} (h : Sweeping R u κ pred t₀ w₀ owed kept locs es x t w) :
    Underway R kept es t x.scan :=
  ⟨h.keeps.wf, ⟨locs, h.scanning, h.nodup, h.totalSlots ▸ h.short, h.holds⟩, h.entries⟩

end Opthash.HashMap
