import Opthash.Guarantees.Placement

namespace Opthash

open Exec HashMap

variable {W K V : Type} {group : GroupBackend} {u : User W K V}

theorem User.calmFor_of_total (h : ∀ k, User.Total (u.hashOne k)) (n : Nat) (c : W) : u.CalmFor n c :=
  (User.unfailing_of_total h n c).calmFor

namespace Funnel

open FunnelTable

/-- The filter lets every stored key pass, to the level of its slot, and a refresh or a rebuild leaves nothing
stale in it. -/
structure FilterCovers (group : GroupBackend) (u : User W K V) (t : FunnelTable K V) : Prop where
  recorded : ∀ slot e, t.storage.Holds slot e → ∃ x, u.Hashes e.1 x ∧ t.Recorded slot x ∧
    (t.membershipGate x).passes = true ∧ (t.membershipGate x).levels &&& t.levelBit slot ≠ 0
  refreshed : ∀ w : World W K V, wp (refreshMembership group u)
    (fun _ s => s.1.storage = t.storage ∧ s.1.Exact u) (fun _ _ => False) (t, w)
  rebuilt : ∀ (shape : FunnelShape) (transition : EpochTransition) (w : World W K V),
    shape.Planned t.reserveFraction → t.len ≤ shape.maxInsertions →
    wp (tryResizeTo group u shape transition) (fun r s => r = .ok () → s.1.Exact u) (fun _ s => s.1 = t) (t, w)

theorem filterCovers_of_sound (hd : u.Deterministic) (hhash : ∀ k, User.Total (u.hashOne k)) {t : FunnelTable K V}
    (hw : t.Wf) (hs : t.Sound u True) : FilterCovers group u t where
  recorded := by
    intro slot e he
    obtain ⟨x, hx, hplaced⟩ := hs (fun _ => hd) slot e he
    have hrecorded := hplaced.recorded trivial
    exact ⟨x, hx, hrecorded, hrecorded.gate⟩
  refreshed := by
    intro w
    refine wp_mono (wp_refreshMembership hw) ?_ ?_
    · exact fun _ s h => ⟨h.1.storage, h.1.exact⟩
    · exact fun p s h => h.2.2.1 (User.calmFor_of_total hhash _ _)
  rebuilt := by
    intro shape transition w hshape hfit
    refine wp_mono (wp_tryResizeTo hw hshape hfit transition w) ?_ (fun _ _ h => h.2.1)
    rintro r s ⟨-, hr⟩ rfl
    exact hr.exact

end Funnel

namespace Elastic

open ElasticTable

theorem exists_stored {A : Event (Elastic.backend .scalar User.sample) → Prop}
    (hallow : ∀ t w r, A ((t, w), .insert 7 70, .ok r)) :
    ∃ t loc, Reachable (Elastic.backend .scalar User.sample) User.sample (Initial .scalar User.sample) A t ∧
      t.Holds loc (7, 70) := by
  obtain ⟨t, r, w, hstep, ht⟩ := Reachable.one (b := Elastic.backend .scalar User.sample) (u := User.sample)
    (A := A) initial_unallocated (hallow _ World.start) (by decide +kernel)
  obtain ⟨loc, hloc⟩ := stored_of_insert (contract .scalar User.sample) initial_unallocated.fresh hstep
  exact ⟨t, loc, ht, hloc⟩

theorem sound_of_reachable (hhash : ∀ k, User.Total (u.hashOne k)) {t : ElasticTable K V}
    (ht : Reachable (Elastic.backend group u) u (Initial group u) (fun e => e.2.1.Consistent u) t) :
    t.Ready ∧ t.Sound u True := by
  obtain ⟨t₀, w₀, w, h₀, hruns⟩ := ht
  have hfresh := h₀.fresh
  apply hruns.sound (contract group u) _ hfresh.wf (hfresh.sound True)
  exact fun e he => ⟨he, fun _ => steadfast_of_total hhash _ _ _⟩

structure FilterCovers (group : GroupBackend) (u : User W K V) (t : ElasticTable K V) : Prop where
  recorded : ∀ loc e, t.Holds loc e → ∃ x, u.Hashes e.1 x ∧ t.Recorded loc x ∧
    (t.routeFilter (.new x)).maybePresent = true ∧
    (t.routeFilter (.new x)).expandedLevelMask &&& ((1 : UInt32) <<< UInt32.ofNat loc.1) ≠ 0
  refreshed : ∀ w : World W K V, wp (refreshMembership group u)
    (fun _ s => s.1.levels = t.levels ∧ s.1.Exact u) (fun _ _ => False) (t, w)
  rebuilt : ∀ (n : Nat) (g : ElasticGeometry) (transition : EpochTransition) (w : World W K V),
    ElasticGeometry.forSlots n t.reserveFraction = .ok (some g) → t.len ≤ g.maxInsertions →
    wp (tryResizeTo group u g transition) (fun r s => r = .ok () → s.1.Exact u) (fun _ s => s.1 = t) (t, w)

theorem filterCovers_of_sound (hd : u.Deterministic) (hhash : ∀ k, User.Total (u.hashOne k)) {t : ElasticTable K V}
    (hw : t.Wf) (hs : t.Sound u True) : FilterCovers group u t where
  recorded := by
    intro loc e he
    obtain ⟨x, hx, hplaced⟩ := hs (fun _ => hd) loc e he
    have hrecorded := hplaced.recorded trivial
    refine ⟨x, hx, hrecorded, routeFilter_of_recorded hrecorded, ?_⟩
    rw [routeFilter, if_neg hrecorded.1]
    exact expandedLevelMask_and (Nat.lt_of_lt_of_le he.level_lt hw.levels) hrecorded.2.2
  refreshed := by
    intro w
    refine wp_mono (wp_refreshMembership hw) ?_ ?_
    · rintro _ s ⟨hr, -⟩
      obtain ⟨hashAt, heq⟩ := hr.eq
      exact ⟨by rw [heq]; rfl, hr.exact⟩
    · exact fun p s h => h.2.2.1 (User.calmFor_of_total hhash _ _)
  rebuilt := by
    intro n g transition w hg hfit
    refine wp_mono (wp_tryResizeTo hw (ElasticGeometry.laid_of_forSlots hg) hfit transition w) ?_ (fun _ _ h => h.2.1)
    rintro r s ⟨-, hr⟩ rfl
    exact hr.exact

end Elastic

theorem filters_cover (hd : u.Deterministic) (hhash : ∀ k, User.Total (u.hashOne k)) :
    (∀ t : Funnel.FunnelTable K V,
      Reachable (Funnel.backend group u) u (Funnel.Initial group u) (fun e => e.2.1.Consistent u) t →
      Funnel.FilterCovers group u t) ∧
    ∀ t : Elastic.ElasticTable K V,
      Reachable (Elastic.backend group u) u (Elastic.Initial group u) (fun e => e.2.1.Consistent u) t →
      Elastic.FilterCovers group u t := by
  constructor
  · intro t ht
    obtain ⟨hw, hs⟩ := Funnel.sound_of_reachable hhash ht
    exact Funnel.filterCovers_of_sound hd hhash hw hs
  · intro t ht
    obtain ⟨hw, hs⟩ := Elastic.sound_of_reachable hhash ht
    exact Elastic.filterCovers_of_sound hd hhash hw.toWf hs

/-- The entry of one insertion, in either table. -/
theorem filters_cover_insert :
    (∃ (t : Funnel.FunnelTable UInt64 Nat) (slot : Nat), t.storage.Holds slot (7, 70) ∧
      Funnel.FilterCovers .scalar User.sample t) ∧
    ∃ (t : Elastic.ElasticTable UInt64 Nat) (loc : Nat × Nat), t.Holds loc (7, 70) ∧
      Elastic.FilterCovers .scalar User.sample t := by
  obtain ⟨ht, slot, hslot⟩ :=
    Funnel.stored_of_start (A := fun e => e.2.1.Consistent User.sample) fun _ => trivial
  obtain ⟨t', loc, ht', hloc⟩ :=
    Elastic.exists_stored (A := fun e => e.2.1.Consistent User.sample) fun _ _ _ => trivial
  have hcovers := @filters_cover Unit UInt64 Nat .scalar User.sample User.lawful_sample.deterministic
    User.calm_sample.hashOne
  exact ⟨⟨_, slot, hslot, hcovers.1 _ ht⟩, t', loc, hloc, hcovers.2 t' ht'⟩

end Opthash
