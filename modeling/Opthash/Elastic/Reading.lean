import Opthash.Contract
import Opthash.Elastic.Lookup
import Opthash.Elastic.Resize

namespace Opthash.Elastic

open Exec ElasticTable

variable {W K V : Type} (group : GroupBackend)

/-- The locations a scan of a table still visits: the rest of its level, and every later level. -/
def ElasticTable.pending (t : ElasticTable K V) (scan : ElasticScan) : List (Nat × Nat) :=
  (scan.slots.pending group (t.region scan.levelIdx)).map (fun slot => (scan.levelIdx, slot)) ++
    (List.range' (scan.levelIdx + 1) (t.levels.length - (scan.levelIdx + 1))).flatMap t.levelLocs

structure ElasticTable.Settled (t : ElasticTable K V) : Prop where
  levels : ∀ l ∈ t.levels, l.needsCleanup group = false
  stale : t.needsRefresh = false

def reading : Reading (ElasticTable K V) (Nat × Nat) UInt64 ElasticScan K V where
  Wf := ElasticTable.Ready
  Counted := ElasticTable.Counted
  Blank := fun t => ∀ l ∈ t.levels, l.region.Blank
  Settled := ElasticTable.Settled group
  len := ElasticTable.len
  capacity := ElasticTable.maxInsertions
  Holds := ElasticTable.Holds
  Placed := ElasticTable.Placed
  Fits := fun _ hash x => hash = x
  entries := ElasticTable.entries
  Scanning := fun t scan locs => scan.slots.Valid group ∧
    (scan.levelIdx < t.levels.length ∨ scan.slots = .new group) ∧ t.pending group scan = locs
  Undisturbed := fun t loc t' => t'.capacities = t.capacities ∧ t'.totalSlots = t.totalSlots ∧
    ∀ loc', loc' ≠ loc → (t'.region loc'.1).Occ loc'.2 = (t.region loc'.1).Occ loc'.2 ∧
      (t'.region loc'.1).slot loc'.2 = (t.region loc'.1).slot loc'.2
  RefreshesAfter := fun t loc => (t.extractFinish loc).levelNeedsCleanup group loc.1 = false ∧
    (t.extractFinish loc).needsRefresh = true
  RefreshesDeferred := fun t => t.anyNeedsCleanup group = false ∧ t.needsRefresh = true

variable {group} {u : User W K V} {t t' : ElasticTable K V} {x : UInt64} {w : World W K V}

namespace ElasticTable

theorem Ready.len_le (h : t.Ready) (_ : t.len < t.maxInsertions) : t.entries.length < t.totalSlots := by
  have := h.fits
  have := Capacity.maxInsertions_le t.totalSlots t.reserveFraction
  have := h.maxInsertions
  omega

theorem Scaled.plural {n : Nat} (h : Scaled n) : n ≠ 1 := by
  rcases h with rfl | ⟨k, rfl⟩
  · decide
  · rw [Nat.pow_succ]
    omega

theorem Scaled.scale {n : Nat} (h : Scaled n) (doublings : Nat) : Scaled (n * 2 ^ doublings) := by
  rcases h with rfl | ⟨k, rfl⟩
  · exact .inl (Nat.zero_mul _)
  · exact .inr ⟨k + doublings, by rw [← Nat.pow_add]; congr 1; omega⟩

theorem scaled_initialCapacity : Scaled group.initialCapacity := by
  cases group
  · exact .inr ⟨2, rfl⟩
  · exact .inr ⟨3, rfl⟩
  · exact .inr ⟨3, rfl⟩

section Settled

theorem Settled.of_clean (hclean : ∀ l ∈ t.levels, l.tombstones = 0) (hstale : t.staleMembership = 0) :
    t.Settled group := by
  refine ⟨fun l hl => ?_, ?_⟩
  · rw [Level.needsCleanup, hclean l hl]
    exact decide_eq_false (Nat.not_lt_zero _)
  · rw [needsRefresh, hstale]
    exact decide_eq_false (Nat.not_lt_zero _)

theorem anyNeedsCleanup_eq_false : t.anyNeedsCleanup group = false ↔ ∀ l ∈ t.levels, l.needsCleanup group = false := by
  rw [anyNeedsCleanup, List.any_eq_false]
  simp only [Bool.not_eq_true]

end Settled

theorem Prepared.ready (h : t.Prepared t') (hr : t.Ready) : t'.Ready :=
  ⟨h.wf, by rw [h.totalSlots]; exact hr.scaled⟩

theorem Prepared.settled (h : t.Prepared t') (hs : t.Settled group) : t'.Settled group := by
  rw [h.eq]
  exact ⟨hs.levels, hs.stale⟩

theorem Prepared.readied (h : t.Prepared t') (hr : t.Ready) (hroom : t.len < t.maxInsertions) :
    (reading group).Readied u t t' where
  keeps := ⟨h.ready hr, h.counted, h.sound⟩
  entries := List.Perm.of_eq h.entries
  grows := ⟨fun _ => h.maxInsertions, fun hfull => absurd hfull (Nat.ne_of_lt hroom)⟩
  settled := fun _ => h.settled
  room := by
    change t'.len < t'.maxInsertions
    rw [h.len, h.maxInsertions]
    exact hroom

theorem Rebuilt.rearranged {g : ElasticGeometry} (h : Rebuilt u t g t') (hg : Scaled g.totalSlots) :
    (reading group).Rearranged u t t' :=
  ⟨⟨⟨h.wf, by rw [h.totalSlots]; exact hg⟩, fun _ => h.counted, fun _ => h.sound _⟩, h.entries⟩

theorem readied_withEpoch (h : t.Ready) (hroom : t.len < t.maxInsertions) (epoch : EpochState) :
    (reading group).Readied u t { t with epoch } where
  keeps := ⟨⟨h.withEpoch epoch, h.scaled⟩, fun hc => hc.withEpoch epoch, fun hs => Sound.withEpoch hs epoch⟩
  entries := .refl _
  grows := ⟨fun _ => rfl, fun hfull => absurd hfull (Nat.ne_of_lt hroom)⟩
  settled := fun _ hs => ⟨hs.levels, hs.stale⟩
  room := hroom

theorem Taken.undisturbed {f : Level K V → Level K V} {mark : UInt8} {loc : Nat × Nat} {e : K × V}
    (h : t.Taken loc f mark t') (he : t.Holds loc e) : (reading group).Undisturbed t loc t' := by
  refine ⟨h.plan.capacities, h.plan.totalSlots, fun loc' hne => ?_⟩
  rw [h.region_eq he]
  split
  · rename_i hlevel
    refine ⟨(Region.occ_setControl h.free loc'.2).trans (if_neg fun hslot => hne (Prod.ext hlevel hslot)), rfl⟩
  · exact ⟨rfl, rfl⟩

theorem Wf.totalSlots_le (h : t.Wf) : t.totalSlots ≤ 32 * u32Max := by
  have hsum : ∀ caps : List Nat, (∀ cap ∈ caps, cap ≤ u32Max) → caps.sum ≤ caps.length * u32Max := by
    intro caps hcaps
    induction caps with
    | nil => exact Nat.le_refl _
    | cons cap caps ih =>
      obtain ⟨hcap, hcaps⟩ := List.forall_mem_cons.mp hcaps
      have := ih hcaps
      rw [List.sum_cons, List.length_cons, Nat.succ_mul]
      omega
  have hcaps := hsum t.capacities h.small
  have hlen : t.capacities.length ≤ 32 := by
    rw [capacities, List.length_map]
    exact h.levels
  rw [← h.slots]
  exact Nat.le_trans hcaps (Nat.mul_le_mul_right _ hlen)

section Growth

variable {newCapacity : Nat}

structure Resized (u : User W K V) (group : GroupBackend) (newCapacity : Nat) (t t' : ElasticTable K V) : Prop where
  rearranged : (reading group).Rearranged u t t'
  maxInsertions : t'.maxInsertions = Capacity.maxInsertions newCapacity t.reserveFraction
  totalSlots : t'.totalSlots = newCapacity
  counted : t'.Counted
  settled : t'.Settled group

theorem wp_resize_resized (hr : t.Ready) (hn : Scaled newCapacity)
    (hfit : t.len ≤ Capacity.maxInsertions newCapacity t.reserveFraction) (transition : EpochTransition) :
    wp (resizeWithTransition group u newCapacity transition)
      (fun _ s => s.2.ledger = w.ledger ∧ Resized u group newCapacity t s.1)
      (Refused u t w.ledger) (t, w) := by
  refine wp_mono (wp_resizeWithTransition hr.toWf hfit transition w) ?_ (fun _ _ h => h)
  rintro _ s ⟨hledger, g, hg, hrebuilt⟩
  refine ⟨hledger, hrebuilt.rearranged (by rw [hg.totalSlots]; exact hn), ?_, ?_, hrebuilt.counted,
    .of_clean hrebuilt.clean hrebuilt.stale⟩
  · rw [hrebuilt.maxInsertions hg, hg.maxInsertions]
  · rw [hrebuilt.totalSlots, hg.totalSlots]

theorem Resized.len_le (h : Resized u group newCapacity t t') (hr : t.Ready) : t'.len ≤ t.len := by
  have hperm : t'.entries.length = t.entries.length := h.rearranged.entries.length_eq
  rw [h.counted.len, hperm]
  exact hr.fits

theorem Resized.readied_of_full (h : Resized u group newCapacity t t') (hr : t.Ready) (hfull : t.maxInsertions ≤ t.len)
    (hroom : t.len < Capacity.maxInsertions newCapacity t.reserveFraction) : (reading group).Readied u t t' where
  toRearranged := h.rearranged
  grows := by
    refine ⟨fun hlt => absurd hlt (Nat.not_lt.mpr hfull), fun _ => ?_⟩
    change t.maxInsertions < t'.maxInsertions
    rw [h.maxInsertions]
    exact Nat.lt_of_le_of_lt hfull hroom
  settled := fun _ _ => h.settled
  room := by
    change t'.len < t'.maxInsertions
    rw [h.maxInsertions]
    exact Nat.lt_of_le_of_lt (h.len_le hr) hroom

theorem Resized.readied_of_room (h : Resized u group t.totalSlots t t') (hr : t.Ready) (hroom : t.len < t.maxInsertions) :
    (reading group).Readied u t t' := by
  have hsame : t'.maxInsertions = t.maxInsertions := h.maxInsertions.trans hr.maxInsertions.symm
  refine ⟨⟨h.rearranged, fun _ _ => h.settled⟩, ⟨fun _ => hsame, fun hfull => absurd hfull (Nat.ne_of_lt hroom)⟩, ?_⟩
  change t'.len < t'.maxInsertions
  rw [hsame]
  exact Nat.lt_of_le_of_lt (h.len_le hr) hroom

theorem Resized.refitted {needed : Nat} (h : Resized u group newCapacity t t')
    (hfit : needed ≤ Capacity.maxInsertions newCapacity t.reserveFraction) : (reading group).Refitted u needed t t' :=
  ⟨h.rearranged, hfit.trans_eq h.maxInsertions.symm, h.settled⟩

theorem grownCapacity_spec (hr : t.Ready) (hfull : t.maxInsertions ≤ t.len) :
    t.len < Capacity.maxInsertions
      (if t.totalSlots = 0 then group.initialCapacity else saturatingUsize (t.totalSlots * 2)) t.reserveFraction ∧
    Scaled (if t.totalSlots = 0 then group.initialCapacity else saturatingUsize (t.totalSlots * 2)) := by
  have hlen := hr.limit
  have hmax := hr.maxInsertions
  split
  · rename_i h0
    have := Capacity.maxInsertions_le t.totalSlots t.reserveFraction
    have := Capacity.maxInsertions_pos t.reserveFraction group.initialCapacity_pos
    exact ⟨by omega, scaled_initialCapacity⟩
  · have hsmall := hr.totalSlots_le
    have hplural := hr.scaled.plural
    have hsat : saturatingUsize (t.totalSlots * 2) = t.totalSlots * 2 := by
      unfold saturatingUsize usizeMax
      unfold u32Max at hsmall
      omega
    have hdouble := maxInsertions_double t.reserveFraction (by omega : 2 ≤ t.totalSlots)
    rw [hsat]
    exact ⟨by omega, hr.scaled.scale 1⟩

end Growth

section Insert

structure Placeable (u : User W K V) (group : GroupBackend) (t : ElasticTable K V) (x : UInt64) (ledger : Ledger K V)
    (loc : Nat × Nat) (s : ElasticTable K V × World W K V) : Prop where
  ledger : s.2.ledger = ledger
  readied : (reading group).Readied u t s.1
  target : s.1.Target x loc

variable {t₁ : ElasticTable K V} {w₁ : World W K V}

theorem Prepared.placeable {loc : Nat × Nat} (hl : w₁.ledger = w.ledger) (h₁ : (reading group).Readied u t t₁)
    (h : t₁.Prepared t') (ht : t'.Target x loc) : Placeable u group t x w.ledger loc (t', w₁) :=
  ⟨hl, h₁.trans (h.readied h₁.keeps.wf h₁.room), ht⟩

theorem wp_placeable_prepare {placement : ExactPlacement} (hl : w₁.ledger = w.ledger)
    (h₁ : (reading group).Readied u t t₁) (h : t₁.Chosen x placement)
    {R : Panic → ElasticTable K V × World W K V → Prop} :
    wp (onFst (preparePlacement placement)) (Placeable u group t x w.ledger) R (t₁, w₁) := by
  rw [wp_onFst]
  refine wp_mono (wp_preparePlacement h₁.keeps.wf.toWf h) ?_ (fun _ _ => id)
  rintro loc t' ⟨-, hp, ht⟩
  exact hp.placeable hl h₁ ht

theorem wp_placeable_exceptional (hl : w₁.ledger = w.ledger) (h₁ : (reading group).Readied u t t₁)
    {R : Panic → ElasticTable K V × World W K V → Prop} :
    wp (onFst prepareExceptional) (Placeable u group t x w.ledger) R (t₁, w₁) := by
  have hready : t₁.Ready := h₁.keeps.wf
  rw [wp_onFst]
  refine wp_mono (wp_prepareExceptional (x := x) hready.toWf (hready.len_le h₁.room)) ?_ (fun _ _ => id)
  rintro loc t' ⟨hp, ht⟩
  exact hp.placeable hl h₁ ht

theorem wp_placeAfterTargetFailure {target : BatchTarget} (hr : t.Ready) (hl : w₁.ledger = w.ledger)
    (hroom : t.len < t.maxInsertions) :
    wp (placeAfterTargetFailure group u (.new x) target) (Placeable u group t x w.ledger) (Refused u t w.ledger)
      (t, w₁) := by
  rw [placeAfterTargetFailure, wp_bind, wp_get]
  dsimp only
  split
  · rename_i placement hchoose
    exact wp_placeable_prepare hl (.refl hr hroom) (chooseSlotOnOtherTargets_spec hr.toWf hchoose)
  · rw [wp_ite]
    refine ⟨fun _ => ?_, fun _ => ?_⟩
    · rw [wp_bind, wp_modify]
      exact wp_placeable_exceptional hl (readied_withEpoch hr hroom t.epoch.notePlacementRecovery)
    · rw [wp_bind]
      have hfit : t.len ≤ Capacity.maxInsertions t.totalSlots t.reserveFraction := hr.maxInsertions ▸ hr.limit
      refine wp_mono (wp_resize_resized hr hr.scaled hfit _) ?_ (fun _ _ h => ⟨h.1, h.2.1, h.2.2.trans hl⟩)
      rintro _ ⟨t₂, w₂⟩ ⟨hledger, h₂⟩
      dsimp only at hledger h₂ ⊢
      have hreadied₂ : (reading group).Readied u t t₂ := h₂.readied_of_room hr hroom
      have hready₂ : t₂.Ready := hreadied₂.keeps.wf
      rw [wp_bind, wp_onFst]
      refine wp_mono (wp_currentTarget hready₂.toWf) ?_ (fun _ _ => id)
      rintro target' t₃ ⟨-, h₃⟩
      have hreadied₃ : (reading group).Readied u t t₃ := hreadied₂.trans (h₃.readied hready₂ hreadied₂.room)
      rw [wp_bind, wp_get]
      dsimp only
      split
      · rename_i placement hchoose
        exact wp_placeable_prepare (hledger.trans hl) hreadied₃ (chooseSlotForNewKey_spec h₃.wf hchoose)
      · exact wp_placeable_exceptional (hledger.trans hl) hreadied₃

theorem wp_placeable_target (hl : w₁.ledger = w.ledger) (h₁ : (reading group).Readied u t t₁) :
    wp (do
        let target ← onFst currentTarget
        let (t, _) ← Exec.get
        match t.chooseSlotForNewKey (PreparedElasticKey.new x).probe target with
        | some placement => onFst (preparePlacement placement)
        | none => placeAfterTargetFailure group u (.new x) target : Run (ElasticTable K V) W K V (Nat × Nat))
      (Placeable u group t x w.ledger) (Regrown (reading group) u t w.ledger) (t₁, w₁) := by
  have hready : t₁.Ready := h₁.keeps.wf
  rw [wp_bind, wp_onFst]
  refine wp_mono (wp_currentTarget hready.toWf) ?_ (fun _ _ => False.elim)
  rintro target t₂ ⟨-, h₂⟩
  have hreadied : (reading group).Readied u t t₂ := h₁.trans (h₂.readied hready h₁.room)
  rw [wp_bind, wp_get]
  dsimp only
  split
  · rename_i placement hchoose
    exact wp_placeable_prepare hl hreadied (chooseSlotForNewKey_spec h₂.wf hchoose)
  · refine wp_mono (wp_placeAfterTargetFailure (h₂.ready hready) hl hreadied.room) ?_
      (fun _ _ h => Refused.regrown h hreadied.stretched)
    exact fun loc s h => ⟨h.ledger, hreadied.trans h.readied, h.target⟩

theorem wp_prepareInsert (hr : t.Ready) :
    wp (prepareInsert group u (.new x)) (Placeable u group t x w.ledger) (Regrown (reading group) u t w.ledger)
      (t, w) := by
  rw [prepareInsert, wp_bind, wp_get]
  dsimp only
  split
  · rename_i hfull
    obtain ⟨hroom, hscaled⟩ := @grownCapacity_spec _ _ group t hr hfull
    rw [wp_bind]
    refine wp_mono (wp_resize_resized hr hscaled (Nat.le_of_lt hroom) _) ?_ (fun _ _ h => Refused.regrown h (.refl hr))
    rintro _ ⟨t₁, w₁⟩ ⟨hledger, h₁⟩
    exact wp_placeable_target hledger (h₁.readied_of_full hr hfull hroom)
  · rename_i hroom
    exact wp_placeable_target rfl (.refl hr (Nat.lt_of_not_le hroom))

end Insert

end ElasticTable

end Opthash.Elastic
