import Opthash.Guarantees.Counters

namespace Opthash

open Exec HashMap

variable {W K V : Type} {group : GroupBackend} {u : User W K V}

namespace Funnel

open FunnelTable

/-- The table holds what the other one held, each entry in one slot, and no tombstone. -/
structure Committed (t t' : FunnelTable K V) : Prop where
  entries : t'.storage.entries.Perm t.storage.entries
  len : t'.len = t.len
  tombstones : t'.tombstones = 0 ∧ t'.storage.tombstoneCount = 0

theorem FunnelTable.Rebuilt.committed {t t' : FunnelTable K V} {shape : FunnelShape} {transition : EpochTransition}
    (hc : t.Counted)
    (h : Rebuilt u t shape transition t') : Committed t t' where
  entries := h.entries
  len := by rw [h.counted.len, hc.len, h.entries.length_eq]
  tombstones := ⟨h.clean, h.counted.tombstones.symm.trans h.clean⟩

/-- A rebuild moves every entry or leaves the table as it was, and so does a reservation that is refused. -/
structure RebuildsAtomically (group : GroupBackend) (u : User W K V) (t : FunnelTable K V) : Prop where
  rebuild : ∀ (shape : FunnelShape) (transition : EpochTransition) (w : World W K V), shape.Planned t.reserveFraction →
    t.len ≤ shape.maxInsertions → wp (tryResizeTo group u shape transition)
      (fun r s => match r with
        | .ok _ => Committed t s.1 ∧ s.1.shape = shape
        | .error _ => s.1 = t) (fun _ s => s.1 = t) (t, w)
  resize : ∀ (shape : FunnelShape) (transition : EpochTransition) (w : World W K V), shape.Planned t.reserveFraction →
    t.len ≤ shape.maxInsertions → wp (resizeWithTransition group u shape.n transition)
      (fun _ s => Committed t s.1 ∧ s.1.shape = shape) (fun _ s => s.1 = t) (t, w)
  tryReserve : ∀ (additional : Nat) (w : World W K V), wp (HashMap.tryReserve (Funnel.backend group u) additional)
    (fun r s => ∀ e, r = .error e → s.1 = t) (fun _ s => s.1 = t) (t, w)

theorem rebuildsAtomically_of_counted {t : FunnelTable K V} (hw : t.Wf) (hc : t.Counted) :
    RebuildsAtomically group u t where
  rebuild := by
    intro shape transition w hshape hfit
    refine wp_mono (wp_tryResizeTo hw hshape hfit transition w) ?_ (fun _ _ h => h.2.1)
    rintro (e | _) s ⟨-, hr⟩
    · exact hr
    · exact ⟨hr.committed hc, hr.shape⟩
  resize := by
    intro shape transition w hshape hfit
    refine wp_mono (wp_resizeWithTransition hw hshape hfit transition w) ?_ (fun _ _ h => h.2.1)
    exact fun _ s h => ⟨h.2.committed hc, h.2.shape⟩
  tryReserve := by
    intro additional w
    refine wp_mono (wp_tryReserve (b := Funnel.backend group u) (contract group u) hw additional) ?_ (fun _ _ h => h.2.1)
    rintro _ s h e rfl
    exact h.1

end Funnel

namespace Elastic

open ElasticTable

structure Committed (t t' : ElasticTable K V) : Prop where
  entries : t'.entries.Perm t.entries
  len : t'.len = t.len
  tombstones : ∀ l ∈ t'.levels, l.tombstones = 0 ∧ l.region.tombstoneCount = 0

theorem ElasticTable.Rebuilt.committed {t t' : ElasticTable K V} {g : ElasticGeometry} (hc : t.Counted) (h : Rebuilt u t g t') :
    Committed t t' where
  entries := h.entries
  len := by rw [h.counted.len, hc.len, h.entries.length_eq]
  tombstones := fun l hl => ⟨h.clean l hl, (h.counted.levels l hl).2.symm.trans (h.clean l hl)⟩

structure RebuildsAtomically (group : GroupBackend) (u : User W K V) (t : ElasticTable K V) : Prop where
  rebuild : ∀ (n : Nat) (g : ElasticGeometry) (transition : EpochTransition) (w : World W K V),
    ElasticGeometry.forSlots n t.reserveFraction = .ok (some g) → t.len ≤ g.maxInsertions →
    wp (tryResizeTo group u g transition)
      (fun r s => match r with
        | .ok _ => Committed t s.1 ∧ s.1.levels.map (fun l => l.region.capacity) = g.levelCapacities
        | .error _ => s.1 = t) (fun _ s => s.1 = t) (t, w)
  resize : ∀ (n : Nat) (transition : EpochTransition) (w : World W K V),
    t.len ≤ Capacity.maxInsertions n t.reserveFraction → wp (resizeWithTransition group u n transition)
      (fun _ s => Committed t s.1) (fun _ s => s.1 = t) (t, w)
  tryReserve : ∀ (additional : Nat) (w : World W K V), wp (HashMap.tryReserve (Elastic.backend group u) additional)
    (fun r s => ∀ e, r = .error e → s.1 = t) (fun _ s => s.1 = t) (t, w)

theorem rebuildsAtomically_of_counted {t : ElasticTable K V} (hw : t.Ready) (hc : t.Counted) :
    RebuildsAtomically group u t where
  rebuild := by
    intro n g transition w hg hfit
    refine wp_mono (wp_tryResizeTo hw.toWf (ElasticGeometry.laid_of_forSlots hg) hfit transition w) ?_ (fun _ _ h => h.2.1)
    rintro (e | _) s ⟨-, hr⟩
    · exact hr
    · exact ⟨hr.committed hc, hr.capacities⟩
  resize := by
    intro n transition w hfit
    refine wp_mono (wp_resizeWithTransition hw.toWf hfit transition w) ?_ (fun _ _ h => h.2.1)
    rintro _ s ⟨-, g, -, hr⟩
    exact hr.committed hc
  tryReserve := by
    intro additional w
    refine wp_mono (wp_tryReserve (b := Elastic.backend group u) (contract group u) hw additional) ?_ (fun _ _ h => h.2.1)
    rintro _ s h e rfl
    exact h.1

end Elastic

/-- In every run whose drains come to the reset of the counters, whatever else panics. -/
theorem rebuilds_atomic :
    (∀ t : Funnel.FunnelTable K V, Reachable (Funnel.backend group u) u (Funnel.Initial group u)
        (Settling (b := Funnel.backend group u) (Funnel.reading group) u) t → Funnel.RebuildsAtomically group u t) ∧
    ∀ t : Elastic.ElasticTable K V, Reachable (Elastic.backend group u) u (Elastic.Initial group u)
        (Settling (b := Elastic.backend group u) (Elastic.reading group) u) t → Elastic.RebuildsAtomically group u t := by
  constructor
  · rintro t ⟨t₀, w₀, w, h₀, hruns⟩
    have hfresh := h₀.fresh
    obtain ⟨hw, hc⟩ := hruns.counted (Funnel.contract group u) (fun _ => id) hfresh.wf hfresh.counted
    exact Funnel.rebuildsAtomically_of_counted hw hc
  · rintro t ⟨t₀, w₀, w, h₀, hruns⟩
    have hfresh := h₀.fresh
    obtain ⟨hw, hc⟩ := hruns.counted (Elastic.contract group u) (fun _ => id) hfresh.wf hfresh.counted
    exact Elastic.rebuildsAtomically_of_counted hw hc

theorem rebuilds_atomic_insert : Funnel.RebuildsAtomically .scalar User.sample Funnel.FunnelTable.stored ∧
    ∃ (t : Elastic.ElasticTable UInt64 Nat) (loc : Nat × Nat), t.Holds loc (7, 70) ∧
      Elastic.RebuildsAtomically .scalar User.sample t := by
  have hatomic := @rebuilds_atomic Unit UInt64 Nat .scalar User.sample
  obtain ⟨ht, -⟩ := Funnel.stored_of_start
    (A := Settling (b := Funnel.backend .scalar User.sample) (Funnel.reading .scalar) User.sample)
    fun _ => ⟨trivial, trivial⟩
  obtain ⟨t, loc, ht', hloc⟩ := Elastic.exists_stored
    (A := Settling (b := Elastic.backend .scalar User.sample) (Elastic.reading .scalar) User.sample)
    fun _ _ _ => ⟨trivial, trivial⟩
  exact ⟨hatomic.1 _ ht, t, loc, hloc, hatomic.2 t ht'⟩

def User.bursting : User Unit UInt64 Nat := { User.sample with dropValue := fun _ => raise (), needsDrop := true }

/-- A drain a destructor interrupts leaves a length that a rebuild does not keep. -/
theorem interrupted_drain_drifts : ∃ t : Elastic.ElasticTable UInt64 Nat,
    Reachable (Elastic.backend .scalar User.bursting) User.bursting (Elastic.Initial .scalar User.bursting)
      (fun e => ¬e.2.1.Leaks) t ∧ t.len = 2 ∧
    ∃ s, Elastic.ElasticTable.resizeWithTransition .scalar User.bursting t.totalSlots .tombstoneCleanup (t, World.start) =
      (.ok (), s) ∧ s.1.len = 1 := by
  have h₀ : Elastic.Initial .scalar User.bursting Elastic.ElasticTable.unallocated :=
    ⟨0, ⟨1, by decide, by decide⟩, World.start, World.start, rfl⟩
  let ops : List (Op UInt64 Nat) := [.insert 7 70, .insert 9 90, .drain 0]
  have hleaks : ∀ op ∈ ops, ∀ (s : Elastic.ElasticTable UInt64 Nat × World Unit UInt64 Nat)
      (r : Except Panic (Ret UInt64 Nat)), ¬op.Leaks := by
    intro op hop s r
    simp only [ops, List.mem_cons, List.not_mem_nil, or_false] at hop
    rcases hop with rfl | rfl | rfl <;> exact id
  obtain ⟨t, w, ht, hdrifted⟩ := Reachable.replayed (b := Elastic.backend .scalar User.bursting) (u := User.bursting)
    (A := fun e => ¬e.2.1.Leaks) h₀ World.start hleaks (fun s => s.1.len == 2 &&
      match Elastic.ElasticTable.resizeWithTransition .scalar User.bursting s.1.totalSlots .tombstoneCleanup
        (s.1, World.start) with
      | (.ok _, s') => s'.1.len == 1
      | (.error _, _) => false) (by decide +kernel)
  obtain ⟨hlen, hdrifted⟩ := Bool.and_eq_true_iff.mp hdrifted
  refine ⟨t, ht, eq_of_beq hlen, ?_⟩
  rcases hresize : Elastic.ElasticTable.resizeWithTransition .scalar User.bursting t.totalSlots .tombstoneCleanup
    (t, World.start) with ⟨p | r, s⟩
  · rw [hresize] at hdrifted
    cases hdrifted
  · rw [hresize] at hdrifted
    exact ⟨s, rfl, eq_of_beq hdrifted⟩

end Opthash
