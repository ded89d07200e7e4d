import Opthash.Funnel.Lookup
import Opthash.Funnel.Updates
import Opthash.Raw.Move

namespace Opthash.Funnel

open Exec Probe Probing

theorem funnelLayout_spec {group : GroupBackend} {slotSize slotAlign n : Nat} {p : Layout × Nat}
    (h : funnelLayout group slotSize slotAlign n = .ok p) :
    p.2 = Membership.wordCount n ∧ n < 2 ^ 63 := by
  unfold funnelLayout at h
  dsimp only at h
  split at h
  · rename_i hn
    obtain ⟨controlBytes, -, h⟩ := bind_ok h
    obtain ⟨⟨base, off⟩, -, h⟩ := bind_ok h
    exact ⟨Arena.extendMembership_words h, by omega⟩
  · obtain ⟨controlBytes, hctrl, h⟩ := bind_ok h
    obtain ⟨⟨base, off⟩, hbase, h⟩ := bind_ok h
    refine ⟨Arena.extendMembership_words h, ?_⟩
    obtain ⟨rfl, -⟩ := checkedUsize_spec (orOverflow_spec hctrl)
    unfold Arena.layoutForExtents at hbase
    split at hbase
    · omega
    · obtain ⟨ctrlLayout, hlayout, -⟩ := bind_ok hbase
      have := (Layout.fromSizeAlign_spec hlayout).2
      unfold cacheLine at this
      omega

namespace FunnelTable

variable {W K V : Type} {group : GroupBackend} {u : User W K V} {q : Prop} {t : FunnelTable K V} {x : UInt64}

def Vacates (t : FunnelTable K V) (x : UInt64) (vacancy : Option Vacancy) : Prop :=
  ∀ v, vacancy = some v → ∃ slot, v = t.vacancyAt slot ∧ t.VacantFor x slot

theorem vacates_none : t.Vacates x none := fun _ h => by cases h

theorem vacates_searchVacancy (hw : t.Wf) :
    t.Vacates x (t.searchVacancy group (prepareFunnel t.probeSeed x)) := by
  intro v hv
  by_cases hn : t.shape.n = 0
  · rw [searchVacancy, if_pos hn] at hv
    cases hv
  · rw [searchVacancy_eq (hw.laid hn) hn] at hv
    obtain ⟨slot, hslot, rfl⟩ := Option.map_eq_some_iff.mp hv
    have hreach : t.OnWalk x slot := reached_firstFree (fun m hm => (isFree_iff _).mpr (.inl hm)) hslot
    have hfree := firstFree_free hslot
    exact ⟨slot, rfl, walk_lt (hw.laid hn) hreach.mem, hfree, hreach⟩

/-- Where a new entry goes: a free slot, on its walk unless the placement is exceptional. -/
structure Target (t : FunnelTable K V) (x : UInt64) (slot : Nat) (exceptional : Bool) : Prop where
  lt : slot < t.shape.n
  free : isFree (t.storage.ctrl slot)
  reachable : exceptional = true ∨ t.OnWalk x slot

theorem wp_resolveVacancy {σ : Type} (hw : t.Wf) (hroom : t.storage.entries.length < t.shape.n)
    {vacancy : Option Vacancy} (hv : t.Vacates x vacancy) {R : Panic → σ → Prop} (s : σ) :
    wp (t.resolveVacancy vacancy)
      (fun r s' => s' = s ∧ ∃ slot, r.1 = t.vacancyAt slot ∧ t.Target x slot r.2) R s := by
  unfold resolveVacancy
  cases vacancy with
  | none =>
    obtain ⟨slot, hfind, hlt, hfree⟩ := hw.exists_free hroom
    rw [hfind]
    exact ⟨rfl, slot, rfl, hlt, hfree, .inl rfl⟩
  | some v =>
    obtain ⟨slot, rfl, hslot⟩ := hv v rfl
    exact ⟨rfl, slot, rfl, hslot.lt, hslot.free, .inr hslot.reached⟩

section Rebuild

variable {shape : FunnelShape} {transition : EpochTransition}

/-- The table while a rebuild fills its new generation: it holds the entries moved so far. -/
structure Rebuilding (u : User W K V) (old : FunnelTable K V) (shape : FunnelShape)
    (transition : EpochTransition) (done : List (K × V)) (exceptional : Bool) (t : FunnelTable K V) : Prop where
  wf : t.Wf
  shape : t.shape = shape
  reserveFraction : t.reserveFraction = old.reserveFraction
  epoch : t.epoch = old.epoch
  probeSeed : transition ≠ .placementRecovery → t.probeSeed = old.probeSeed
  entries : t.storage.entries.Perm done
  counted : t.Counted
  clean : t.tombstones = 0
  sound : ∀ q, t.Sound u q
  exact : t.Exact u
  stale : t.staleMembership = 0
  exceptional : t.exceptionalPlacement = exceptional

theorem Rebuilding.len {old : FunnelTable K V} {done : List (K × V)} {exceptional : Bool}
    (h : Rebuilding u old shape transition done exceptional t) : t.len = done.length :=
  h.counted.len.trans h.entries.length_eq

theorem wp_placeUnique {old : FunnelTable K V} {done : List (K × V)} {e : K × V} {exceptional : Bool}
    (h : Rebuilding u old shape transition done exceptional t) (hroom : done.length < shape.maxInsertions)
    (hx : u.Hashes e.1 x) :
    wp (placeUnique group e x)
      (fun outside t' => Rebuilding u old shape transition (done ++ [e]) (exceptional || outside) t')
      (fun _ _ => False) t := by
  have hlen := h.len
  have hle := FunnelShape.maxInsertions_le h.wf.shape
  rw [h.shape] at hle
  simp only [placeUnique, wp_bind, wp_get]
  have hentries : t.storage.entries.length < t.shape.n := by
    rw [h.shape, h.entries.length_eq]
    omega
  refine wp_mono (wp_resolveVacancy h.wf hentries (vacates_searchVacancy h.wf) t) ?_ (fun _ _ h => h)
  rintro ⟨vacancy, outside⟩ t' ⟨rfl, slot, hvacancy, htarget⟩
  dsimp only at hvacancy htarget ⊢
  subst hvacancy
  rw [wp_bind, wp_modify, wp_pure]
  have hlimit : t'.len < t'.shape.maxInsertions := by rw [h.shape, hlen]; exact hroom
  have hcounted : (t'.place slot e.1 e.2 x outside).Counted :=
    counted_place h.wf htarget.lt htarget.free h.counted
  exact {
    wf := wf_place h.wf htarget.lt htarget.free hlimit
    shape := h.shape
    reserveFraction := h.reserveFraction
    epoch := h.epoch
    probeSeed := h.probeSeed
    entries := ((entries_place h.wf htarget.lt htarget.free).trans (h.entries.cons _)).trans
      (List.perm_append_singleton _ _).symm
    counted := hcounted
    clean := by
      have hzero : t'.storage.tombstoneCount = 0 := h.counted.tombstones.symm.trans h.clean
      have hcount := Region.tombstoneCount_writeWithControl (r := t'.storage) (e := (e.1, e.2))
        (by rw [h.wf.capacity]; exact htarget.lt) (controlFingerprint_ne_ctrlTombstone x)
      have htomb := hcounted.tombstones
      rw [storage_place] at htomb
      exact htomb.trans (by omega)
    sound := fun q => sound_place h.wf htarget.lt hx htarget.reachable (h.sound q)
    exact := exact_place h.wf htarget.lt htarget.free hx h.exact
    stale := h.stale
    exceptional := by
      rw [← h.exceptional, Bool.or_comm]
      exact exceptionalPlacement_place }

theorem rebuilding_start (hs : shape.Planned t.reserveFraction)
    (hsmall : shape.n < 2 ^ 63) (transition : EpochTransition) :
    Rebuilding u t shape transition [] false (t.swapGeneration (t.generation shape transition (.empty shape.n)
      (.zeroed (Membership.wordCount shape.n)))).1 where
  wf := {
    planned := hs
    capacity := rfl
    small := hsmall
    filled := Region.filled_empty
    padded := fun _ _ => rfl
    fits := by
      rw [swapGeneration, generation]
      exact Nat.le_of_eq (congrArg List.length Region.entries_empty)
    limit := Nat.zero_le _
    words := rfl
    bins := fun _ _ => knownLevels_zero }
  shape := rfl
  reserveFraction := rfl
  epoch := rfl
  probeSeed := fun h => if_neg h
  entries := by
    rw [swapGeneration, generation]
    exact List.Perm.of_eq Region.entries_empty
  counted := {
    len := (congrArg List.length Region.entries_empty).symm
    tombstones := Region.tombstoneCount_empty.symm }
  clean := rfl
  sound := fun _ => sound_of_entries_nil Region.entries_empty
  exact := by
    refine ⟨fun _ => 0, ?_, ?_⟩
    · intro slot e he
      have := he.2.1
      rw [swapGeneration, generation, Region.occ_empty] at this
      cases this
    · have hnil : (Region.empty shape.n : Region (K × V)).occupied = [] := by
        apply List.filter_eq_nil_iff.mpr
        intro i _
        rw [Region.occ_empty]
        exact Bool.false_ne_true
      rw [swapGeneration, generation, recordAll, hnil]
      rfl
  stale := rfl
  exceptional := rfl

theorem moves (hw : t.Wf) (hfit : t.len ≤ shape.maxInsertions) (next : FunnelGeneration K V) :
    (rebuildable group).Moves u t.storage.entries t (t.swapGeneration next).2 (Rebuilding u t shape transition) where
  place := by
    intro done e rest exceptional t' x hall hI hx
    apply wp_placeUnique hI ?_ hx
    have := hw.fits
    rw [hall, List.length_append, List.length_cons] at this
    omega
  restore := by
    intro done exceptional t' hI
    simp only [rebuildable, swapGeneration, hI.reserveFraction, hI.epoch]

structure Rebuilt (u : User W K V) (old : FunnelTable K V) (shape : FunnelShape)
    (transition : EpochTransition) (t : FunnelTable K V) : Prop where
  wf : t.Wf
  shape : t.shape = shape
  reserveFraction : t.reserveFraction = old.reserveFraction
  probeSeed : transition ≠ .placementRecovery → t.probeSeed = old.probeSeed
  entries : t.storage.entries.Perm old.storage.entries
  counted : t.Counted
  clean : t.tombstones = 0
  sound : ∀ q, t.Sound u q
  exact : t.Exact u
  stale : t.staleMembership = 0

theorem Wf.withEpoch (h : t.Wf) (epoch : EpochState) : { t with epoch }.Wf :=
  ⟨h.planned, h.capacity, h.small, h.filled, h.padded, h.fits, h.limit, h.words, h.bins⟩

theorem Counted.withEpoch (h : t.Counted) (epoch : EpochState) : { t with epoch }.Counted :=
  ⟨h.len, h.tombstones⟩

theorem Sound.withEpoch (h : t.Sound u q) (epoch : EpochState) : { t with epoch }.Sound u q := by
  have hext : t.Extends { t with epoch } := ⟨rfl, rfl, rfl, fun _ => id, id, fun _ => id⟩
  exact h.mono hext fun slot e he => ⟨e, rfl, he, rfl⟩

theorem Rebuilding.rebuilt {exceptional : Bool}
    {t' : FunnelTable K V} (h : Rebuilding u t shape transition t.storage.entries exceptional t')
    (epoch : EpochState) : Rebuilt u t shape transition { t' with epoch } :=
  ⟨h.wf.withEpoch epoch, h.shape, h.reserveFraction, h.probeSeed, h.entries, h.counted.withEpoch epoch, h.clean,
    fun q => (h.sound q).withEpoch epoch, h.exact, h.stale⟩

theorem wp_tryAllocateStorage (n : Nat) (w : World W K V) {R : Panic → World W K V → Prop} :
    wp (tryAllocateStorage group u n)
      (fun r w' => w'.ledger = w.ledger ∧ ∀ storage membership, r = .ok (storage, membership) →
        storage = .empty n ∧ membership = .zeroed (Membership.wordCount n) ∧ n < 2 ^ 63) R w := by
  unfold tryAllocateStorage
  split
  · exact ⟨rfl, fun _ _ h => by cases h⟩
  · rename_i layout words hlayout
    obtain ⟨hwords, hn⟩ := funnelLayout_spec hlayout
    dsimp only at hwords
    subst hwords
    dsimp only
    have hpost : ∀ (allocated : Bool) (w' : World W K V), w'.ledger = w.ledger →
        wp (if allocated then pure (.ok (.empty n, .zeroed (Membership.wordCount n)))
            else pure (.error .allocError) :
            Exec Panic (World W K V) (Except TryReserveError (Region (K × V) × MembershipRegion)))
          (fun r w' => w'.ledger = w.ledger ∧ ∀ storage membership, r = .ok (storage, membership) →
            storage = .empty n ∧ membership = .zeroed (Membership.wordCount n) ∧ n < 2 ^ 63) R w' := by
      intro allocated w' hw'
      rw [wp_ite]
      refine ⟨fun _ => ⟨hw', fun _ _ h => ?_⟩, fun _ => ⟨hw', fun _ _ h => by cases h⟩⟩
      cases h
      exact ⟨rfl, rfl, hn⟩
    rw [wp_ite, wp_bind, wp_bind]
    exact ⟨fun _ => hpost true w rfl, fun _ => hpost _ _ rfl⟩

theorem wp_tryResizeTo (hw : t.Wf) (hs : shape.Planned t.reserveFraction)
    (hfit : t.len ≤ shape.maxInsertions) (transition : EpochTransition) (w : World W K V) :
    wp (tryResizeTo group u shape transition)
      (fun r s => s.2.ledger = w.ledger ∧ match r with
        | .ok _ => Rebuilt u t shape transition s.1
        | .error _ => s.1 = t)
      (fun e s => u.Unwound e ∧ s.1 = t ∧ s.2.ledger = w.ledger) (t, w) := by
  rw [tryResizeTo, wp_bind, wp_onSnd]
  refine wp_mono (wp_tryAllocateStorage shape.n w) ?_ (fun _ _ h => h)
  rintro (e | ⟨storage, membership⟩) w' ⟨hledger, hnew⟩
  · exact ⟨hledger, rfl⟩
  · obtain ⟨rfl, rfl, hsmall⟩ := hnew storage membership rfl
    simp only [wp_bind, wp_get]
    have hregions : ∀ r ∈ [t.storage], r.Scannable true ∧ r.Filled := by
      intro r hr
      rw [List.mem_singleton.mp hr]
      exact ⟨hw.scannable, hw.filled⟩
    refine wp_mono (Rebuildable.wp_rebuild (moves hw hfit _) hregions
      (List.append_nil t.storage.entries).symm (rebuilding_start hs hsmall transition)) ?_ ?_
    · rintro recovered s ⟨hI, hl⟩
      rw [wp_bind, wp_modify]
      exact ⟨hl.trans hledger, hI.rebuilt _⟩
    · rintro e s ⟨he, hs', hl⟩
      exact ⟨he, hs', hl.trans hledger⟩

theorem wp_resizeWithTransition (hw : t.Wf) (hs : shape.Planned t.reserveFraction)
    (hfit : t.len ≤ shape.maxInsertions) (transition : EpochTransition) (w : World W K V) :
    wp (resizeWithTransition group u shape.n transition)
      (fun _ s => s.2.ledger = w.ledger ∧ Rebuilt u t shape transition s.1)
      (fun e s => (u.Unwound e ∨ e.Exhausted) ∧ s.1 = t ∧ s.2.ledger = w.ledger) (t, w) := by
  simp only [resizeWithTransition, wp_bind, wp_get]
  rw [show FunnelShape.fromSlots shape.n t.reserveFraction = .ok shape from hs, orPanic, wp_pure, wp_bind]
  refine wp_mono (wp_tryResizeTo hw hs hfit transition w) ?_ ?_
  · rintro (e | _) s ⟨hledger, hr⟩
    · dsimp only at hr ⊢
      rw [wp_bind]
      cases funnelLayout group u.slotSize u.slotAlign shape.n with
      | error _ => exact ⟨.inr .layout, hr, hledger⟩
      | ok _ => exact ⟨.inr .alloc, hr, hledger⟩
    · exact ⟨hledger, hr⟩
  · rintro e s ⟨he, hs', hl⟩
    exact ⟨.inl he, hs', hl⟩

end Rebuild

end FunnelTable

end Opthash.Funnel
