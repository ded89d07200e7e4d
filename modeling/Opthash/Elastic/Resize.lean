import Opthash.Elastic.Placement
import Opthash.Raw.Move

namespace Opthash.Elastic.ElasticTable

open Exec Probe

variable {W K V : Type} {group : GroupBackend} {u : User W K V} {q : Prop} {t t' : ElasticTable K V} {x : UInt64}
  {g : ElasticGeometry} {n : Nat}

theorem wp_liftPanic_ok {σ α : Type} {c : Except Panic α} {a : α} {Q : α → σ → Prop} {R : Panic → σ → Prop} {s : σ}
    (h : c = .ok a) : wp (liftPanic c) Q R s ↔ Q a s := by
  rw [h]
  rfl

/-- The table while a rebuild fills its new generation: it holds the entries moved so far. -/
structure Rebuilding (u : User W K V) (old : ElasticTable K V) (g : ElasticGeometry) (done : List (K × V))
    (t : ElasticTable K V) : Prop where
  wf : t.Wf
  totalSlots : t.totalSlots = g.totalSlots
  capacities : t.capacities = g.levelCapacities
  reserveFraction : t.reserveFraction = old.reserveFraction
  epoch : t.epoch = old.epoch
  entries : t.entries.Perm done
  counted : t.Counted
  clean : ∀ l ∈ t.levels, l.tombstones = 0
  sound : ∀ q, t.Sound u q
  exact : t.Exact u
  stale : t.staleMembership = 0

theorem Rebuilding.len {old : ElasticTable K V} {done : List (K × V)} (h : Rebuilding u old g done t) :
    t.len = done.length := h.counted.len.trans h.entries.length_eq

theorem Prepared.rebuilding {old : ElasticTable K V} {done : List (K × V)} (hp : t.Prepared t')
    (h : Rebuilding u old g done t) : Rebuilding u old g done t' where
  wf := hp.wf
  totalSlots := hp.totalSlots.trans h.totalSlots
  capacities := hp.toExtends.capacities.trans h.capacities
  reserveFraction := by rw [hp.eq]; exact h.reserveFraction
  epoch := by rw [hp.eq]; exact h.epoch
  entries := by rw [hp.entries]; exact h.entries
  counted := hp.counted h.counted
  clean := by rw [hp.levels]; exact h.clean
  sound := fun q => hp.sound (h.sound q)
  exact := hp.exact h.exact
  stale := by rw [hp.eq]; exact h.stale

theorem Rebuilding.place {old : ElasticTable K V} {done : List (K × V)} {e : K × V} {loc : Nat × Nat}
    (h : Rebuilding u old g done t) (ht : t.Target x loc) (hx : u.Hashes e.1 x) (hlen : t.len < t.maxInsertions) :
    Rebuilding u old g (done ++ [e]) (t.place loc e.1 e.2 x) where
  wf := wf_place h.wf ht hlen
  totalSlots := h.totalSlots
  capacities := samePlan_place.capacities.trans h.capacities
  reserveFraction := h.reserveFraction
  epoch := h.epoch
  entries := ((entries_place ht.vacant).trans (h.entries.cons _)).trans (List.perm_append_singleton _ _).symm
  counted := counted_place ht.vacant h.counted
  clean := by
    obtain ⟨-, l, -, hl, hr⟩ := ht.vacant.level
    refine levels_modify hl levels_place h.clean fun hclean => ?_
    have hzero : l.region.tombstoneCount = 0 :=
      (h.counted.levels l (List.mem_of_getElem? hl)).2.symm.trans hclean
    have hslot := ht.vacant.slot
    rw [hr] at hslot
    have hcount := Region.tombstoneCount_writeWithControl (e := (e.1, e.2)) hslot (controlFingerprint_ne_ctrlTombstone x)
    rw [Level.write]
    dsimp only
    split
    · rename_i hmark
      rw [if_pos hmark] at hcount
      omega
    · exact hclean
  sound := fun q => sound_place h.wf ht hx (h.sound q)
  exact := exact_place ht.vacant hx h.exact
  stale := h.stale

theorem wp_placeUnique {old : ElasticTable K V} {done : List (K × V)} {e : K × V}
    (h : Rebuilding u old g done t) (hroom : done.length < t.maxInsertions) (hx : u.Hashes e.1 x) :
    wp (placeUnique e x) (fun _ t' => Rebuilding u old g (done ++ [e]) t') (fun _ _ => False) t := by
  rw [placeUnique, wp_bind]
  refine wp_mono (wp_currentTarget h.wf) ?_ (fun _ _ => id)
  rintro target t₁ ⟨-, h₁⟩
  have hI := h₁.rebuilding h
  have hlen : t₁.len < t₁.maxInsertions := by rw [h₁.len, h.len, h₁.maxInsertions]; exact hroom
  have hplace : ∀ (loc : Nat × Nat) (exceptional : Bool) (t₂ : ElasticTable K V), t₁.Prepared t₂ → t₂.Target x loc →
      wp (do
          Exec.modify fun t => t.writeNewEntry e.1 e.2 (.new x) (controlFingerprint x) loc.1 loc.2
          pure exceptional : Exec Panic (ElasticTable K V) Bool)
        (fun _ t' => Rebuilding u old g (done ++ [e]) t') (fun _ _ => False) t₂ := by
    intro loc exceptional t₂ h₂ ht
    rw [wp_bind, wp_modify, wp_pure]
    exact (h₂.rebuilding hI).place ht hx (by rw [h₂.len, h₂.maxInsertions]; exact hlen)
  rw [wp_bind, wp_get]
  dsimp only
  split
  · rename_i placement hchoose
    rw [wp_bind]
    refine wp_mono (wp_preparePlacement hI.wf (chooseSlotForNewKey_spec hI.wf hchoose)) ?_ (fun _ _ => id)
    rintro loc t₂ ⟨-, h₂, ht⟩
    exact hplace loc false t₂ h₂ ht
  · rw [wp_bind]
    have hfree : t₁.entries.length < t₁.totalSlots := by
      have := Capacity.maxInsertions_le t₁.totalSlots t₁.reserveFraction
      rw [← hI.wf.maxInsertions] at this
      have := hI.wf.fits
      omega
    refine wp_mono (wp_prepareExceptional (x := x) hI.wf hfree) ?_ (fun _ _ => id)
    rintro loc t₂ ⟨h₂, ht⟩
    exact hplace loc true t₂ h₂ ht

theorem levels_newAt {caps : List Nat} {l : Level K V} (h : l ∈ caps.map Level.newAt) :
    l.region.entries = [] ∧ l.region.tombstoneCount = 0 ∧ l.region.Filled ∧ l.len = 0 ∧ l.tombstones = 0 := by
  obtain ⟨cap, -, rfl⟩ := List.mem_map.mp h
  exact ⟨Region.entries_empty, Region.tombstoneCount_empty, Region.filled_empty, rfl, rfl⟩

theorem capacities_newAt {caps : List Nat} :
    (caps.map (Level.newAt : Nat → Level K V)).map (fun l => l.region.capacity) = caps := by
  rw [List.map_map]
  exact List.map_id _

section Start

variable {caps : List Nat}

structure Blank (t : ElasticTable K V) (g : ElasticGeometry) : Prop where
  levels : t.levels = g.levelCapacities.map Level.newAt
  len : t.len = 0
  totalSlots : t.totalSlots = g.totalSlots
  maxInsertions : t.maxInsertions = g.maxInsertions
  probeHighWater : t.probeHighWater = 0
  probeSchedule : t.probeSchedule = []
  membership : t.membership = .zeroed (Membership.wordCount g.levelCapacities.sum)
  stale : t.staleMembership = 0

namespace Blank

variable (h : t.Blank g)
include h

theorem capacities : t.capacities = g.levelCapacities := by
  rw [ElasticTable.capacities, h.levels]
  exact capacities_newAt

theorem entries : t.entries = [] := by
  rw [ElasticTable.entries, h.levels]
  exact List.flatMap_eq_nil_iff.mpr fun l hl => (levels_newAt hl).1

theorem wf (hg : g.Laid n t.reserveFraction) (hsmall : ∀ cap ∈ g.levelCapacities, cap ≤ u32Max) : t.Wf := by
  have hprior : t.priorHighWater.toNat = 0 := by
    rw [priorHighWater, h.probeHighWater]
    decide
  exact {
    levels := by rw [h.levels, List.length_map]; exact hg.levels
    slots := by rw [h.capacities, h.totalSlots, hg.sum, hg.totalSlots]
    small := by rw [h.capacities]; exact hsmall
    maxInsertions := by rw [h.maxInsertions, hg.maxInsertions, h.totalSlots, hg.totalSlots]
    filled := by rw [h.levels]; exact fun l hl => (levels_newAt hl).2.2.1
    fits := by rw [h.entries]; exact Nat.zero_le _
    limit := by rw [h.len]; exact Nat.zero_le _
    words := by rw [h.membership, h.totalSlots, hg.sum, hg.totalSlots]; rfl
    highWater := by rw [hprior]; exact Nat.zero_le _
    schedule := scheduled_nil h.probeSchedule hprior
    lodged := lodged_of_entries_nil h.entries }

theorem counted : t.Counted where
  len := by rw [h.entries, h.len]; rfl
  levels := by
    rw [h.levels]
    intro l hl
    obtain ⟨hentries, htomb, -, hlen, hzero⟩ := levels_newAt hl
    exact ⟨by rw [hlen, hentries]; rfl, by rw [hzero, htomb]⟩

theorem sound : t.Sound u q := sound_of_entries_nil h.entries

theorem exact (hw : t.Wf) : t.Exact u := by
  have hocc : t.occupied = [] := List.eq_nil_of_length_eq_zero (by rw [length_occupied hw, h.entries]; rfl)
  refine ⟨fun _ => 0, fun loc e he => ?_, ?_⟩
  · have := mem_entries.mpr ⟨loc, he⟩
    rw [h.entries] at this
    cases this
  · rw [recordAll, hocc, h.membership]
    rfl

end Blank

theorem rebuilding_start (hg : g.Laid n t.reserveFraction) (hsmall : ∀ cap ∈ g.levelCapacities, cap ≤ u32Max)
    (hblank : t'.Blank g) (hreserve : t'.reserveFraction = t.reserveFraction) (hepoch : t'.epoch = t.epoch) :
    Rebuilding u t g [] t' where
  wf := hblank.wf (hreserve ▸ hg) hsmall
  totalSlots := hblank.totalSlots
  capacities := hblank.capacities
  reserveFraction := hreserve
  epoch := hepoch
  entries := List.Perm.of_eq hblank.entries
  counted := hblank.counted
  clean := by
    rw [hblank.levels]
    exact fun l hl => (levels_newAt hl).2.2.2.2
  sound := fun _ => hblank.sound
  exact := hblank.exact (hblank.wf (hreserve ▸ hg) hsmall)
  stale := hblank.stale

end Start

theorem moves (hw : t.Wf) (hg : g.Laid n t.reserveFraction) (hfit : t.len ≤ g.maxInsertions)
    (next : ElasticGeneration K V) :
    rebuildable.Moves u t.entries t (t.swapGeneration next).2 (fun done _ => Rebuilding u t g done) where
  place := by
    intro done e rest exceptional t' x hall hI hx
    apply wp_placeUnique hI ?_ hx
    have hmax : t'.maxInsertions = g.maxInsertions := by
      rw [hI.wf.maxInsertions, hI.totalSlots, hI.reserveFraction, hg.maxInsertions, hg.totalSlots]
    have := hw.fits
    rw [hall, List.length_append, List.length_cons] at this
    omega
  restore := by
    intro done exceptional t' hI
    simp only [rebuildable, swapGeneration, hI.reserveFraction, hI.epoch]

structure Rebuilt (u : User W K V) (old : ElasticTable K V) (g : ElasticGeometry) (t : ElasticTable K V) : Prop where
  wf : t.Wf
  totalSlots : t.totalSlots = g.totalSlots
  capacities : t.capacities = g.levelCapacities
  reserveFraction : t.reserveFraction = old.reserveFraction
  entries : t.entries.Perm old.entries
  counted : t.Counted
  clean : ∀ l ∈ t.levels, l.tombstones = 0
  sound : ∀ q, t.Sound u q
  exact : t.Exact u
  stale : t.staleMembership = 0

theorem Wf.withEpoch (h : t.Wf) (epoch : EpochState) : { t with epoch }.Wf :=
  ⟨h.levels, h.slots, h.small, h.maxInsertions, h.filled, h.fits, h.limit, h.words, h.highWater, h.schedule,
    fun loc e he => (h.lodged loc e he).imp fun _ hx => ⟨hx.fingerprint, hx.reachable⟩⟩

theorem Counted.withEpoch (h : t.Counted) (epoch : EpochState) : { t with epoch }.Counted := ⟨h.len, h.levels⟩

theorem Sound.withEpoch (h : t.Sound u q) (epoch : EpochState) : { t with epoch }.Sound u q := by
  have hext : t.Extends { t with epoch } := ⟨rfl, rfl, fun _ => id, id, Nat.le_refl _⟩
  exact h.mono hext fun loc e he => ⟨e, rfl, he, rfl⟩

theorem Rebuilding.rebuilt (h : Rebuilding u t g t.entries t') (epoch : EpochState) :
    Rebuilt u t g { t' with epoch } :=
  ⟨h.wf.withEpoch epoch, h.totalSlots, h.capacities, h.reserveFraction, h.entries, h.counted.withEpoch epoch, h.clean,
    fun q => (h.sound q).withEpoch epoch, h.exact, h.stale⟩

theorem Rebuilt.maxInsertions (h : Rebuilt u t g t') (hg : g.Laid n t.reserveFraction) :
    t'.maxInsertions = g.maxInsertions := by
  rw [h.wf.maxInsertions, h.totalSlots, h.reserveFraction, hg.maxInsertions, hg.totalSlots]

theorem wp_tryResizeTo (hw : t.Wf) (hg : g.Laid n t.reserveFraction) (hfit : t.len ≤ g.maxInsertions)
    (transition : EpochTransition) (w : World W K V) :
    wp (tryResizeTo group u g transition)
      (fun r s => s.2.ledger = w.ledger ∧ match r with
        | .ok _ => Rebuilt u t g s.1
        | .error _ => s.1 = t)
      (fun e s => u.Unwound e ∧ s.1 = t ∧ s.2.ledger = w.ledger) (t, w) := by
  rw [tryResizeTo, wp_bind, wp_onSnd]
  refine wp_mono wp_tryProbeSchedule ?_ (fun _ _ => id)
  rintro (e | _) w₁ hledger
  · exact ⟨hledger, rfl⟩
  · dsimp only
    rw [wp_bind, wp_onSnd]
    refine wp_mono wp_tryAllocElasticArena ?_ (fun _ _ h => h)
    rintro (e | ⟨levels, membership⟩) w₂ ⟨hledger₂, hnew⟩
    · exact ⟨hledger₂.trans hledger, rfl⟩
    · obtain ⟨rfl, rfl, hsmall⟩ := hnew levels membership rfl
      dsimp only
      rw [wp_bind]
      have hregions : ∀ r ∈ t.levels.map Level.region, r.Scannable false ∧ r.Filled := by
        intro r hr
        obtain ⟨l, hl, rfl⟩ := List.mem_map.mp hr
        obtain ⟨level, hlevel⟩ := List.mem_iff_getElem?.mp hl
        have hscan := hw.scannable level
        rw [region_of_getElem? hlevel] at hscan
        exact ⟨hscan, hw.filled l hl⟩
      have hentries : t.entries = (t.levels.map Level.region).flatMap Region.entries :=
        (List.flatMap_map ..).symm
      refine wp_mono (Rebuildable.wp_rebuild (moves hw hg hfit _) hregions hentries
        (rebuilding_start hg hsmall ⟨rfl, rfl, rfl, rfl, rfl, rfl, rfl, rfl⟩ rfl rfl)) ?_ ?_
      · rintro recovered s ⟨hI, hl⟩
        rw [wp_bind, wp_modify]
        exact ⟨hl.trans (hledger₂.trans hledger), hI.rebuilt _⟩
      · rintro e s ⟨he, hs', hl⟩
        exact ⟨he, hs', hl.trans (hledger₂.trans hledger)⟩

theorem wp_resizeWithTransition (hw : t.Wf) {newCapacity : Nat}
    (hfit : t.len ≤ Capacity.maxInsertions newCapacity t.reserveFraction) (transition : EpochTransition)
    (w : World W K V) :
    wp (resizeWithTransition group u newCapacity transition)
      (fun _ s => s.2.ledger = w.ledger ∧ ∃ g, g.Laid newCapacity t.reserveFraction ∧ Rebuilt u t g s.1)
      (fun e s => (u.Unwound e ∨ e.Exhausted) ∧ s.1 = t ∧ s.2.ledger = w.ledger) (t, w) := by
  rw [resizeWithTransition, wp_bind, wp_get]
  dsimp only
  rw [wp_bind]
  rcases ElasticGeometry.forSlots_spec newCapacity t.reserveFraction with hnone | ⟨g, hsome, hg⟩
  · rw [wp_liftPanic_ok hnone]
    exact ⟨.inr .capacity, rfl, rfl⟩
  · rw [wp_liftPanic_ok hsome, expect, pure_bind, wp_bind]
    refine wp_mono (wp_tryResizeTo hw hg (by rw [hg.maxInsertions]; exact hfit) transition w) ?_ ?_
    · rintro (e | _) s ⟨hledger, hr⟩
      · exact ⟨.inr .alloc, hr, hledger⟩
      · exact ⟨hledger, g, hg, hr⟩
    · rintro e s ⟨he, hs', hl⟩
      exact ⟨.inl he, hs', hl⟩

end Opthash.Elastic.ElasticTable
