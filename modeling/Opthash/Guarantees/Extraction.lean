import Opthash.Guarantees.Filter
import Opthash.Shell.Visits

namespace Opthash

open Exec HashMap

variable {W K V : Type}

/-- `extract_if` and `retain` on a table, whatever the predicate does and wherever they stop. -/
structure HashMap.ExtractsExactly {b : TableBackend W K V} (R : Reading b.Table b.Location b.Vacant b.Scan K V)
    (u : User W K V) (t : b.Table) : Prop where
  order : (scanOrder b t).Nodup ∧ List.Forall₂ (R.Holds t) (scanOrder b t) (R.entries t)
  extractIf : ∀ (pred : Predicate K V) (calls : List Bool) (unwinds : Bool) (w : World W K V),
    wp (useExtractIf b pred calls unwinds)
      (fun taken s => Extraction R u pred t (taken.foldl Ledger.hand w.ledger) taken s.1 s.2 ∧
        (s.1.finished = true ∨ calls.count false ≤ taken.length))
      (fun p s => p ≠ .abort → ∃ taken, Extraction R u pred t (taken.foldl Ledger.hand w.ledger) taken s.1 s.2)
      (⟨b.scan t, false, []⟩, t, w)
  uncaught : ∀ (pred : Predicate K V) (n : Nat) (w : World W K V),
    HashMap.extractIf b pred n (t, w) =
      ((useExtractIf b pred (List.replicate n false) false (⟨b.scan t, false, []⟩, t, w)).1,
        (useExtractIf b pred (List.replicate n false) false (⟨b.scan t, false, []⟩, t, w)).2.2)
  retain : ∀ (f : Predicate K V) (w : World W K V),
    HashMap.retain b u f (t, w) =
      ((scanned b (dropMatching b u f.not (b.totalSlots t + 1)) (⟨b.scan t, false, []⟩, t, w)).1,
        (scanned b (dropMatching b u f.not (b.totalSlots t + 1)) (⟨b.scan t, false, []⟩, t, w)).2.2) ∧
    wp (scanned b (dropMatching b u f.not (b.totalSlots t + 1)))
      (fun _ s => s.1.seen = R.entries t ∧
        ∃ dropped, Extraction R u f.not t (dropped.foldl Ledger.drop w.ledger) dropped s.1 s.2)
      (fun p s => p ≠ .abort →
        ∃ dropped, Extraction R u f.not t (dropped.foldl Ledger.drop w.ledger) dropped s.1 s.2)
      (⟨b.scan t, false, []⟩, t, w)

namespace HashMap

variable {b : TableBackend W K V} {R : Reading b.Table b.Location b.Vacant b.Scan K V} {u : User W K V} {t : b.Table}

theorem extractIf_eq (pred : Predicate K V) (n : Nat) (w : World W K V) :
    extractIf b pred n (t, w) =
      ((useExtractIf b pred (List.replicate n false) false (⟨b.scan t, false, []⟩, t, w)).1,
        (useExtractIf b pred (List.replicate n false) false (⟨b.scan t, false, []⟩, t, w)).2.2) := by
  have hbody : (callNext b pred (List.replicate n false) >>= fun entries => pure entries) = yieldMatching b pred n := by
    rw [callNext_replicate, bind_pure]
  rw [extractIf, withExtractScan_eq, ← hbody]
  rfl

theorem retain_eq (f : Predicate K V) (w : World W K V) :
    retain b u f (t, w) =
      ((scanned b (dropMatching b u f.not (b.totalSlots t + 1)) (⟨b.scan t, false, []⟩, t, w)).1,
        (scanned b (dropMatching b u f.not (b.totalSlots t + 1)) (⟨b.scan t, false, []⟩, t, w)).2.2) := by
  rw [← withExtractScan_eq]
  rfl

theorem extractsExactly_of_wf (hc : Contract R u) (hw : R.Wf t) : ExtractsExactly R u t := by
  constructor
  · obtain ⟨locs, rfl, -, hnodup, hholds, -⟩ := scan_enumerate hc hw
    exact ⟨hnodup, hholds⟩
  · exact fun pred calls unwinds w => wp_useExtractIf pred hc hw calls unwinds w
  · exact fun pred n w => extractIf_eq pred n w
  · exact fun f w => ⟨retain_eq f w, wp_retain_scanned f hc hw w⟩

end HashMap

namespace Predicate

/-- Accepts the first entry it sees, doubles the value of the second and panics there. -/
def sample : Predicate UInt64 Nat := fun seen e => if seen.length = 0 then (e.2, some true) else (2 * e.2, none)

end Predicate

section Reachable

variable {group : GroupBackend} {u : User W K V}

/-- Every removal by a predicate is exact: the predicate sees a prefix of the scan once, what it accepts goes to the
caller, everything else stays with the values it left, and one cleanup follows. -/
theorem extraction_exact :
    (∀ t : Funnel.FunnelTable K V, Reachable (Funnel.backend group u) u (Funnel.Initial group u) (fun _ => True) t →
      ExtractsExactly (b := Funnel.backend group u) (Funnel.reading group) u t) ∧
    ∀ t : Elastic.ElasticTable K V, Reachable (Elastic.backend group u) u (Elastic.Initial group u) (fun _ => True) t →
      ExtractsExactly (b := Elastic.backend group u) (Elastic.reading group) u t := by
  constructor
  · intro t ht
    have hc := Funnel.contract group u
    exact extractsExactly_of_wf hc (ht.wf hc fun _ h => h.fresh.wf)
  · intro t ht
    have hc := Elastic.contract group u
    exact extractsExactly_of_wf hc (ht.wf hc fun _ h => h.fresh.wf)

def halfExtracted (s : Funnel.FunnelTable UInt64 Nat × World Unit UInt64 Nat) : Bool :=
  s.1.storage.entries == [(7, 70), (9, 90)] &&
    match useExtractIf (Funnel.backend .scalar User.sample) Predicate.sample [false, false] false
      (⟨(Funnel.backend .scalar User.sample).scan s.1, false, []⟩, s.1, World.start) with
    | (.error p, _, t, _) => p == .user && t.storage.entries == [(9, 180)]
    | _ => false

/-- Of two entries one goes to the caller, and the one the predicate panics at stays. -/
theorem extraction_exact_sample : ∃ t : Funnel.FunnelTable UInt64 Nat, t.storage.entries = [(7, 70), (9, 90)] ∧
    wp (useExtractIf (Funnel.backend .scalar User.sample) Predicate.sample [false, false] false)
      (fun _ _ => False)
      (fun p s => p = .user ∧ s.2.1.storage.entries = [(9, 180)] ∧
        ∃ taken, Extraction (b := Funnel.backend .scalar User.sample) (Funnel.reading .scalar) User.sample
          Predicate.sample t (taken.foldl Ledger.hand ⟨[], [], []⟩) taken s.1 s.2)
      (⟨(Funnel.backend .scalar User.sample).scan t, false, []⟩, t, World.start) := by
  obtain ⟨t, w, ht, hhalf⟩ := Reachable.replayed (b := Funnel.backend .scalar User.sample) (u := User.sample)
    (A := fun _ => True) Funnel.initial_unallocated World.start
    (fun op (_ : op ∈ [Op.insert 7 70, .insert 9 90]) _ _ => trivial) halfExtracted (by decide +kernel)
  obtain ⟨hentries, hrun⟩ := Bool.and_eq_true_iff.mp hhalf
  refine ⟨t, eq_of_beq hentries, ?_⟩
  apply wp_mono (wp_and ((extraction_exact.1 t ht).extractIf Predicate.sample [false, false] false World.start)
    (wp_self _ _))
  · rintro taken s ⟨-, hok⟩
    rw [hok] at hrun
    cases hrun
  · rintro p ⟨x, t', w'⟩ ⟨hext, hpanic⟩
    rw [hpanic] at hrun
    obtain ⟨hp, hleft⟩ := Bool.and_eq_true_iff.mp hrun
    obtain rfl := eq_of_beq hp
    exact ⟨rfl, eq_of_beq hleft, hext nofun⟩

end Reachable

end Opthash
