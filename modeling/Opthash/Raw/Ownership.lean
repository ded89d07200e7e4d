import Opthash.Calls
import Opthash.Raw.Contents

namespace Opthash

open Exec Ledger

variable {W K V : Type} {group : GroupBackend} {padded : Bool} {u : User W K V} {κ : K ⊕ V → Nat}
  {w : World W K V}

section Drop

def entriesAt (slots : List (Region (K × V) × Nat)) : List (K × V) :=
  slots.filterMap fun p => p.1.slot p.2

theorem wp_dropRest {slots : List (Region (K × V) × Nat)} (hslots : ∀ p ∈ slots, ∃ e, p.1.slot p.2 = some e) :
    wp (dropRest u slots) (fun _ w' => User.Dropped κ (weighEntries κ (entriesAt slots)) w w')
      (fun p w' => u.Burst p ∧ (p ≠ .abort → User.Dropped κ (weighEntries κ (entriesAt slots)) w w')) w := by
  induction slots generalizing w with
  | nil => exact Gains.refl _
  | cons p slots ih =>
    obtain ⟨region, slot⟩ := p
    obtain ⟨e, he⟩ := hslots _ (List.mem_cons_self ..)
    have hrest : ∀ p ∈ slots, ∃ e, p.1.slot p.2 = some e := fun p hp => hslots p (List.mem_cons_of_mem _ hp)
    have hweigh : weighEntries κ (entriesAt ((region, slot) :: slots)) =
        weighEntry κ e + weighEntries κ (entriesAt slots) := by
      rw [entriesAt, List.filterMap_cons, he, weighEntries_cons]
      rfl
    rw [hweigh, dropRest, wp_bind, Region.getRef, he, expect, wp_pure, wp_bind]
    apply User.wp_cleanup (u := u)
    · exact fun h _ => ⟨⟨.inr rfl, h⟩, fun h' => absurd rfl h'⟩
    refine wp_mono (User.wp_dropEntry (κ := κ) e w) ?_ ?_
    · intro _ w' hw'
      refine wp_mono (ih hrest) ?_ ?_
      · exact fun _ w'' hw'' => Gains.trans hw' hw''
      · exact fun p w'' hp => ⟨hp.1, fun hne => Gains.trans hw' (hp.2 hne)⟩
    · rintro p w' ⟨hp, hw'⟩
      refine ⟨fun _ => ⟨⟨.inr rfl, hp.2⟩, fun h' => absurd rfl h'⟩, fun hne => ?_⟩
      refine wp_mono (ih hrest) ?_ ?_
      · exact fun _ w'' hw'' => ⟨hp, fun _ => Gains.trans (hw' hne) hw''⟩
      · exact fun _ _ h => h.1.2

theorem entriesAt_occupiedSlots (group : GroupBackend) {regions : List (Region (K × V))}
    (hr : ∀ r ∈ regions, r.Scannable padded ∧ r.Filled) :
    entriesAt (regions.flatMap fun region =>
      (occupiedSlots group padded region).map fun slot => (region, slot)) = regions.flatMap Region.entries := by
  induction regions with
  | nil => rfl
  | cons r regions ih =>
    obtain ⟨hscan, hfilled⟩ := hr r (List.mem_cons_self ..)
    rw [List.flatMap_cons, List.flatMap_cons, ← ih fun r' hr' => hr r' (List.mem_cons_of_mem _ hr'),
      entriesAt, List.filterMap_append, List.filterMap_map, occupiedSlots_eq hscan,
      Region.entries_eq hfilled]
    rfl

theorem wp_dropValues {regions : List (Region (K × V))} (hr : ∀ r ∈ regions, r.Scannable padded ∧ r.Filled) :
    wp (dropValues group padded u regions)
      (fun _ w' => Drained u κ (weighEntries κ (regions.flatMap Region.entries)) w w')
      (fun p w' => u.Burst p ∧ (p ≠ .abort →
        Drained u κ (weighEntries κ (regions.flatMap Region.entries)) w w')) w := by
  have hdrained : ∀ {n : Nat} {w' : World W K V}, User.Dropped κ n w w' → Drained u κ n w w' :=
    fun h => ⟨h.made, Nat.le_of_eq h.gone, fun _ => h.gone⟩
  rw [dropValues, wp_ite]
  refine ⟨fun _ => ?_, fun hneeds => ⟨rfl, Nat.le_add_right .., fun h => absurd h hneeds⟩⟩
  rw [← entriesAt_occupiedSlots group hr]
  refine wp_mono (wp_dropRest ?_) (fun _ _ => hdrained) (fun _ _ h => ⟨h.1, fun hne => hdrained (h.2 hne)⟩)
  intro p hp
  obtain ⟨region, hregion, hp⟩ := List.mem_flatMap.mp hp
  obtain ⟨slot, hslot, rfl⟩ := List.mem_map.mp hp
  rw [occupiedSlots_eq (hr region hregion).1] at hslot
  exact (hr region hregion).2 slot (region.mem_occupied.mp hslot).2

end Drop

section Clone

structure Cloning (u : User W K V) (src : Region (K × V)) (done : List Nat) (dst : Region (K × V)) : Prop where
  capacity : dst.capacity = src.capacity
  ctrl : ∀ i, dst.ctrl i = if i ∈ done then src.ctrl i else ctrlEmpty
  cloned : ∀ i ∈ done, ∃ e e', src.slot i = some e ∧ dst.slot i = some e' ∧ u.Clones e e'

namespace Cloning

variable {src dst : Region (K × V)} {done : List Nat}

theorem filled (h : Cloning u src done dst) : dst.Filled := by
  intro i hi
  unfold Region.Occ at hi
  rw [h.ctrl] at hi
  split at hi
  · obtain ⟨-, e', -, he', -⟩ := h.cloned i (by assumption)
    exact ⟨e', he'⟩
  · rw [isOccupied_ctrlEmpty] at hi
    cases hi

theorem scannable (h : Cloning u src done dst) (hs : src.Scannable padded)
    (hdone : ∀ i ∈ done, i < src.capacity) : dst.Scannable padded := by
  refine ⟨by rw [h.capacity]; exact hs.small, fun _ i hi => ?_⟩
  rw [h.ctrl, if_neg]
  intro hmem
  rw [h.capacity] at hi
  exact absurd (hdone i hmem) (Nat.not_lt.mpr hi)

theorem write (h : Cloning u src done dst) {i : Nat} {e e' : K × V} (hi : i ∉ done)
    (he : src.slot i = some e) (hc : u.Clones e e') :
    Cloning u src (done ++ [i]) (dst.writeWithControl i e' (src.ctrl i)) where
  capacity := h.capacity
  ctrl := by
    intro j
    rw [Region.ctrl_writeWithControl, h.ctrl]
    by_cases hj : j = i
    · simp [hj]
    · simp [hj]
  cloned := by
    intro j hj
    rw [Region.slot_writeWithControl]
    rcases List.mem_append.mp hj with hmem | hj
    · obtain ⟨e, e', he, he', hc⟩ := h.cloned j hmem
      rw [if_neg (by rintro rfl; exact hi hmem)]
      exact ⟨e, e', he, he', hc⟩
    · obtain rfl := List.mem_singleton.mp hj
      exact ⟨e, e', he, if_pos rfl, hc⟩

end Cloning

/-- A region that holds a clone of every entry of another one, at the same slot. -/
structure ClonedRegion (u : User W K V) (src dst : Region (K × V)) : Prop where
  capacity : dst.capacity = src.capacity
  ctrl : ∀ i, dst.ctrl i = if i < src.capacity then src.ctrl i else ctrlEmpty
  filled : dst.Filled
  clones : ∀ i, i < src.capacity → src.Occ i → ∃ e e', src.slot i = some e ∧ dst.slot i = some e' ∧ u.Clones e e'

namespace ClonedRegion

variable {src dst : Region (K × V)}

theorem occ (h : ClonedRegion u src dst) {i : Nat} (hi : i < src.capacity) : dst.Occ i = src.Occ i := by
  unfold Region.Occ
  rw [h.ctrl, if_pos hi]

theorem tail (h : ClonedRegion u src dst) : dst.Padded := by
  intro i hi
  rw [h.capacity] at hi
  rw [h.ctrl, if_neg (Nat.not_lt.mpr hi)]

theorem tombstoneCount (h : ClonedRegion u src dst) : dst.tombstoneCount = src.tombstoneCount := by
  rw [Region.tombstoneCount, Region.tombstoneCount, h.capacity]
  apply List.countP_congr
  intro i hi
  rw [h.ctrl, if_pos (List.mem_range.mp hi)]

theorem holds (h : ClonedRegion u src dst) {i : Nat} {e' : K × V} (he' : dst.Holds i e') :
    ∃ e, src.Holds i e ∧ u.Clones e e' := by
  obtain ⟨hi, hocc, hslot⟩ := he'
  rw [h.capacity] at hi
  rw [h.occ hi] at hocc
  obtain ⟨e, f, he, hf, hc⟩ := h.clones i hi hocc
  obtain rfl := Option.some.inj (hf.symm.trans hslot)
  exact ⟨e, ⟨hi, hocc, he⟩, hc⟩

theorem entries (h : ClonedRegion u src dst) : List.Forall₂ u.Clones src.entries dst.entries := by
  rw [Region.entries, Region.entries, h.capacity]
  apply Slots.forall₂_filterMap
  intro i hi
  have hi := List.mem_range.mp hi
  cases hocc : src.Occ i with
  | false =>
    rw [Region.view_eq_none hocc, Region.view_eq_none ((h.occ hi).trans hocc)]
    exact .none
  | true =>
    obtain ⟨e, e', he, he', hc⟩ := h.clones i hi hocc
    rw [Region.view_eq_some.mpr ⟨hocc, he⟩, Region.view_eq_some.mpr ⟨(h.occ hi).trans hocc, he'⟩]
    exact .some hc

end ClonedRegion

theorem Cloning.clonedRegion {src dst : Region (K × V)} (h : Cloning u src src.occupied dst) :
    ClonedRegion u src { dst with ctrl := fun i => if i < src.capacity then src.ctrl i else dst.ctrl i } ∧
      Region.entries { dst with ctrl := fun i => if i < src.capacity then src.ctrl i else dst.ctrl i } =
        dst.entries := by
  have hocc : ∀ i, i < src.capacity → (i ∈ src.occupied ↔ src.Occ i) := fun i hi =>
    src.mem_occupied.trans (and_iff_right hi)
  refine ⟨⟨h.capacity, ?_, ?_, ?_⟩, ?_⟩
  · intro i
    dsimp only
    split
    · rfl
    · rename_i hi
      rw [h.ctrl, if_neg fun hmem => hi (src.mem_occupied.mp hmem).1]
  · intro i hi
    unfold Region.Occ at hi
    dsimp only at hi
    split at hi
    · rename_i hlt
      obtain ⟨-, e', -, he', -⟩ := h.cloned i ((hocc i hlt).mpr hi)
      exact ⟨e', he'⟩
    · exact h.filled i hi
  · exact fun i hlt hi => h.cloned i ((hocc i hlt).mpr hi)
  · apply List.filterMap_congr
    intro i hi
    have hlt : i < src.capacity := by
      rw [← h.capacity]
      exact List.mem_range.mp hi
    unfold Region.view
    simp only [if_pos hlt, h.ctrl, hocc i hlt]
    cases hs : src.Occ i with
    | true => rfl
    | false =>
      unfold Region.Occ at hs
      simp [hs]

/-- What a clone that unwinds leaves: every entry cloned so far weighs in the ledger. -/
structure Undone (κ : K ⊕ V → Nat) (dst : Region (K × V)) (w w' : World W K V) : Prop where
  extra : ∃ n, w'.ledger.gone κ = w.ledger.gone κ + n ∧
    w'.ledger.made κ = w.ledger.made κ + n + weighEntries κ dst.entries

theorem wp_cloneRegionFrom {src : Region (K × V)} (hs : src.Scannable padded) (hf : src.Filled) :
    wp (cloneRegionFrom group padded u src)
      (fun _ s => ClonedRegion u src s.1 ∧ s.2.ledger.gone κ = w.ledger.gone κ ∧
        s.2.ledger.made κ = w.ledger.made κ + weighEntries κ s.1.entries)
      (fun p s => u.Burst p ∧ s.1.Scannable padded ∧ s.1.Filled ∧ (p ≠ .abort → Undone κ s.1 w s.2))
      (.empty src.capacity, w) := by
  simp only [cloneRegionFrom, wp_bind, wp_get, wp_ite]
  refine ⟨fun h => absurd rfl h, fun _ => ?_⟩
  rw [occupiedSlots_eq hs]
  apply wp_forM (fun rest s => ∃ done, src.occupied = done ++ rest ∧ Cloning u src done s.1 ∧
    s.2.ledger.gone κ = w.ledger.gone κ ∧ s.2.ledger.made κ = w.ledger.made κ + weighEntries κ s.1.entries)
  · rintro slot rest ⟨dst, w'⟩ ⟨done, hall, hcloning, hgone, hmade⟩
    dsimp only at hcloning hgone hmade
    have hmem : ∀ i, i ∈ done ++ slot :: rest → i < src.capacity ∧ src.Occ i := by
      intro i hi
      rw [← hall] at hi
      exact src.mem_occupied.mp hi
    obtain ⟨hlt, hocc⟩ := hmem slot (List.mem_append_right _ (List.mem_cons_self ..))
    obtain ⟨e, he⟩ := hf slot hocc
    have hnew : slot ∉ done := by
      have hnodup := src.occupiedFrom_nodup 0
      rw [← Region.occupied, hall] at hnodup
      exact fun h => (List.nodup_append.mp hnodup).2.2 slot h slot (List.mem_cons_self ..) rfl
    rw [wp_bind, Region.getRef, he, expect, wp_pure, wp_bind, wp_onSnd]
    refine wp_mono (User.wp_cloneEntry (κ := κ) e w') ?_ ?_
    · rintro e' w'' ⟨hclone, hgone', hmade'⟩
      have hfree : dst.Occ slot = false := by
        unfold Region.Occ
        rw [hcloning.ctrl, if_neg hnew]
        exact isOccupied_ctrlEmpty
      have hperm := Region.entries_writeWithControl (e := e') (by rwa [hcloning.capacity]) hfree hocc
      refine ⟨done ++ [slot], ?_, hcloning.write hnew he hclone, hgone'.trans hgone, ?_⟩
      · rw [hall, List.append_assoc]
        rfl
      · rw [hmade', hmade, weighEntries_perm hperm, weighEntries_cons]
        omega
    · rintro p w'' ⟨hp, hrest⟩
      refine ⟨hp, hcloning.scannable hs (fun i hi => (hmem i (List.mem_append_left _ hi)).1),
        hcloning.filled, fun hne => ?_⟩
      obtain ⟨n, hgone', hmade'⟩ := hrest hne
      refine ⟨n, by rw [hgone', hgone], ?_⟩
      dsimp only
      rw [hmade', hmade]
      omega
  · rintro ⟨dst, w'⟩ ⟨done, hall, hcloning, hgone, hmade⟩
    rw [List.append_nil] at hall
    subst hall
    obtain ⟨hcloned, hentries⟩ := hcloning.clonedRegion
    refine ⟨hcloned, hgone, ?_⟩
    rw [hmade, ← hentries]
  · refine ⟨[], rfl, ⟨rfl, fun _ => rfl, fun _ h => (List.not_mem_nil h).elim⟩, rfl, ?_⟩
    rw [Region.entries_empty]
    rfl

end Clone

end Opthash
