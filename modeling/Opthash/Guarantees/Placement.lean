import Opthash.Guarantees.FiniteMap
import Opthash.Shell.Histories

namespace Opthash

open Exec FiniteMap HashMap

variable {W K V : Type} {group : GroupBackend} {u : User W K V}

theorem HashMap.stored_of_insert {b : TableBackend W K V} {R : Reading b.Table b.Location b.Vacant b.Scan K V}
    {t₀ t : b.Table} {w₀ w : World W K V} {key : K} {value : V} {r : Ret K V} (hc : Contract R u) (h₀ : Fresh R u t₀)
    (hstep : step b u (.insert key value) (t₀, w₀) = (.ok r, t, w)) : ∃ loc, R.Holds t loc (key, value) := by
  have hw : R.Wf t := (done_of_step (κ := fun _ => 0) hc h₀.wf hstep).wf
  suffices hperm : (R.entries t).Perm [(key, value)] from
    (hc.mem_entries hw).mp (hperm.mem_iff.mpr (List.mem_singleton.mpr rfl))
  suffices hwp : wp (step b u (.insert key value)) (fun _ s => (R.entries s.1).Perm [(key, value)])
      (fun _ _ => True) (t₀, w₀) from (wp_of_ok hstep).mp hwp
  rw [step, wp_bind]
  refine wp_mono (wp_insert (κ := fun _ => 0) hc h₀.wf key value) ?_ (fun _ _ _ => trivial)
  rintro old ⟨t', w'⟩ ⟨hreplaced, hadded⟩
  rw [wp_bind, wp_onSnd]
  apply wp_handValue (κ := fun _ => 0)
  intro w'' _
  cases old with
  | none =>
    obtain ⟨x, -, -, hadded, -⟩ := hadded rfl
    have hentries := hadded.entries
    rwa [h₀.entries] at hentries
  | some old =>
    obtain ⟨-, k', rest, -, hbefore, -⟩ := (hreplaced old rfl).1
    rw [h₀.entries] at hbefore
    cases hbefore.nil_eq

namespace Funnel

open FunnelTable

def FunnelTable.stored : FunnelTable UInt64 Nat :=
  (step (Funnel.backend .scalar User.sample) User.sample (.insert 7 70) (FunnelTable.unallocated, World.start)).2.1

section Stored

variable {A : Event (Funnel.backend .scalar User.sample) → Prop}

theorem stored_of_start (hallow : ∀ r, A ((FunnelTable.unallocated, World.start), .insert 7 70, .ok r)) :
    Reachable (Funnel.backend .scalar User.sample) User.sample (Initial .scalar User.sample) A FunnelTable.stored ∧
      ∃ slot, FunnelTable.stored.storage.Holds slot (7, 70) := by
  obtain ⟨t, r, w, hstep, ht⟩ := Reachable.one (b := Funnel.backend .scalar User.sample) (u := User.sample)
    (A := A) initial_unallocated hallow (by decide +kernel)
  have hstored : FunnelTable.stored = t := congrArg (fun run => run.2.1) hstep
  rw [hstored]
  exact ⟨ht, stored_of_insert (contract .scalar User.sample) initial_unallocated.fresh hstep⟩

end Stored

theorem sound_of_reachable (hhash : ∀ k, User.Total (u.hashOne k)) {t : FunnelTable K V}
    (ht : Reachable (Funnel.backend group u) u (Initial group u) (fun e => e.2.1.Consistent u) t) :
    t.Wf ∧ t.Sound u True := by
  obtain ⟨t₀, w₀, w, h₀, hruns⟩ := ht
  have hfresh := h₀.fresh
  apply hruns.sound (contract group u) _ hfresh.wf (hfresh.sound True)
  exact fun e he => ⟨he, fun _ => steadfast_of_total hhash _ _ _⟩

/-- Unless an entry was placed off its walk, every entry lies on the walk of its key, and no slot before it on
that walk is EMPTY. -/
theorem entries_on_walk (hd : u.Deterministic) (hhash : ∀ k, User.Total (u.hashOne k)) {t : FunnelTable K V}
    (ht : Reachable (Funnel.backend group u) u (Initial group u) (fun e => e.2.1.Consistent u) t) {slot : Nat}
    {e : K × V} (he : t.storage.Holds slot e) :
    ∃ x, u.Hashes e.1 x ∧ (t.exceptionalPlacement = true ∨ t.OnWalk x slot) := by
  obtain ⟨-, hsound⟩ := sound_of_reachable hhash ht
  obtain ⟨x, hx, hplaced⟩ := hsound (fun _ => hd) slot e he
  exact ⟨x, hx, hplaced.reachable⟩

theorem entries_on_walk_insert : ∃ slot, FunnelTable.stored.storage.Holds slot (7, 70) ∧
    ∃ x, User.sample.Hashes 7 x ∧ (FunnelTable.stored.exceptionalPlacement = true ∨ FunnelTable.stored.OnWalk x slot) := by
  obtain ⟨ht, slot, hslot⟩ := stored_of_start (A := fun e => e.2.1.Consistent User.sample) fun _ => trivial
  exact ⟨slot, hslot, entries_on_walk User.lawful_sample.deterministic User.calm_sample.hashOne ht hslot⟩

end Funnel

end Opthash
