import Opthash.Funnel.Invariant

namespace Opthash.Funnel.FunnelTable

open Probe Probing

variable {K V : Type} {W : Type} {u : User W K V} {q : Prop} {t t' : FunnelTable K V} {slot : Nat}

section Place

/-- A new entry at a slot that is free, as every insertion path writes it. -/
def place (t : FunnelTable K V) (slot : Nat) (k : K) (v : V) (x : UInt64) (exceptional : Bool) :
    FunnelTable K V :=
  t.placeNewEntry (t.vacancyAt slot) k v (t.membershipSlot x) (controlFingerprint x) exceptional

variable {k : K} {v : V} {x : UInt64} {exceptional : Bool}

theorem storage_place : (t.place slot k v x exceptional).storage =
    t.storage.writeWithControl slot (k, v) (controlFingerprint x) := rfl

theorem tombstones_place : (t.place slot k v x exceptional).tombstones =
    if t.storage.ctrl slot = ctrlTombstone then wrappingDec usizeMax t.tombstones else t.tombstones := rfl

theorem exceptionalPlacement_place :
    (t.place slot k v x exceptional).exceptionalPlacement = (exceptional || t.exceptionalPlacement) := rfl

theorem holds_place {i : Nat} {e : K × V} :
    (t.place slot k v x exceptional).storage.Holds i e ↔
      (i = slot ∧ slot < t.storage.capacity ∧ e = (k, v)) ∨ (i ≠ slot ∧ t.storage.Holds i e) := by
  rw [storage_place]
  exact Region.holds_writeWithControl (isOccupied_controlFingerprint x)

theorem words_place : (t.place slot k v x exceptional).membership.words = t.membership.words :=
  MembershipRegion.words_record

theorem extends_place : t.Extends (t.place slot k v x exceptional) where
  shape := rfl
  seed := rfl
  words := words_place
  knows := fun _ h => h.record
  exceptional := fun h => by rw [exceptionalPlacement_place, h, Bool.or_true]
  stops := by
    intro i hi
    rw [storage_place, Region.ctrl_writeWithControl] at hi
    split at hi
    · exact absurd hi (controlFingerprint_ne_ctrlEmpty x)
    · exact hi

theorem entries_place (h : t.Wf) (hs : slot < t.shape.n) (hfree : isFree (t.storage.ctrl slot)) :
    (t.place slot k v x exceptional).storage.entries.Perm ((k, v) :: t.storage.entries) := by
  rw [storage_place]
  exact Region.entries_writeWithControl (by rwa [h.capacity]) (Region.not_occ_of_free hfree)
    (isOccupied_controlFingerprint x)

theorem wf_place (h : t.Wf) (hs : slot < t.shape.n) (hfree : isFree (t.storage.ctrl slot))
    (hlen : t.len < t.shape.maxInsertions) : (t.place slot k v x exceptional).Wf where
  planned := h.planned
  capacity := h.capacity
  small := h.small
  filled := Region.filled_writeWithControl h.filled (isOccupied_controlFingerprint x)
  padded := by
    intro i hi
    rw [storage_place, Region.capacity_writeWithControl] at hi
    rw [storage_place, Region.ctrl_writeWithControl, if_neg]
    · exact h.padded i hi
    · rw [h.capacity] at hi
      omega
  fits := by
    rw [(entries_place h hs hfree).length_eq, List.length_cons]
    exact Nat.succ_le_succ h.fits
  limit := hlen
  words := words_place.trans h.words
  bins := by
    intro word bin level hlevel hbit
    rcases MembershipRegion.levelBins_record hbit with hbit | hbit
    · exact h.bins word bin level hlevel hbit
    · exact knownLevels_levelBit h.levels_nil slot level hlevel hbit

theorem counted_place (h : t.Wf) (hs : slot < t.shape.n) (hfree : isFree (t.storage.ctrl slot))
    (hc : t.Counted) : (t.place slot k v x exceptional).Counted where
  len := by
    rw [(entries_place h hs hfree).length_eq, List.length_cons, ← hc.len]
    rfl
  tombstones := by
    have hcount := Region.tombstoneCount_writeWithControl (r := t.storage) (e := (k, v))
      (by rwa [h.capacity]) (controlFingerprint_ne_ctrlTombstone x)
    have ht := hc.tombstones
    rw [storage_place, tombstones_place]
    split
    · rename_i htomb
      rw [if_pos htomb] at hcount
      rw [wrappingDec_of_pos (by omega)]
      omega
    · rename_i htomb
      rw [if_neg htomb] at hcount
      omega

theorem recorded_place (hw : t.membership.words ≠ 0) : (t.place slot k v x exceptional).Recorded slot x := by
  unfold Recorded
  rw [recording_congr words_place rfl]
  exact MembershipRegion.has_record hw (levelBit_ne_zero t slot)

theorem sound_place (h : t.Wf) (hs : slot < t.shape.n) (hx : u.Hashes k x)
    (hreach : exceptional = true ∨ t.OnWalk x slot) (hsound : t.Sound u q) :
    (t.place slot k v x exceptional).Sound u q := by
  intro hd i e he
  rcases holds_place.mp he with ⟨rfl, -, rfl⟩ | ⟨hi, he⟩
  · refine ⟨x, hx, ?_, fun _ => recorded_place ?_, ?_⟩
    · rw [storage_place, Region.ctrl_writeWithControl, if_pos rfl]
    · rw [h.words, Membership.wordCount, Membership.slotsPerWord]
      omega
    · refine hreach.imp (fun he => ?_) (·.mono extends_place)
      rw [exceptionalPlacement_place, he, Bool.true_or]
  · obtain ⟨y, hy, hp⟩ := hsound hd i e he
    refine ⟨y, hy, hp.mono extends_place ?_⟩
    rw [storage_place, Region.ctrl_writeWithControl, if_neg hi]

theorem exact_place (h : t.Wf) (hs : slot < t.shape.n) (hfree : isFree (t.storage.ctrl slot))
    (hx : u.Hashes k x) (he : t.Exact u) : (t.place slot k v x exceptional).Exact u := by
  obtain ⟨hashAt, hhash, hmem⟩ := he
  have hocc := Region.not_occ_of_free hfree
  refine ⟨Function.update hashAt slot x, ?_, ?_⟩
  · intro i e he
    rcases holds_place.mp he with ⟨rfl, -, rfl⟩ | ⟨hi, he⟩
    · rwa [Function.update_self]
    · rw [Function.update_of_ne hi]
      exact hhash i e he
  · have hperm : (t.place slot k v x exceptional).storage.occupied.Perm (t.storage.occupied ++ [slot]) := by
      rw [storage_place]
      exact (Region.occupied_writeWithControl (by rwa [h.capacity]) hocc
        (isOccupied_controlFingerprint x)).trans (List.perm_append_singleton _ _).symm
    have hsame : t.recordAll (Function.update hashAt slot x) t.storage.occupied = t.membership := by
      have hother : ∀ i ∈ t.storage.occupied, Function.update hashAt slot x i = hashAt i := by
        intro i hi
        rw [Function.update_of_ne]
        rintro rfl
        rw [((t.storage.mem_occupied).mp hi).2] at hocc
        cases hocc
      rw [recordAll_hashAt hother, ← hmem]
    rw [recordAll, words_place]
    simp only [recording_congr (t := t) words_place rfl]
    rw [MembershipRegion.recordAll_perm (hperm.map _), List.map_append, List.map_singleton,
      MembershipRegion.recordAll_append, ← recordAll, hsame, Function.update_self]
    rfl

end Place

section Delete

structure Tombstoned (t : FunnelTable K V) (slot : Nat) (t' : FunnelTable K V) : Prop where
  storage : t'.storage = t.storage.markTombstone slot
  shape : t'.shape = t.shape
  reserveFraction : t'.reserveFraction = t.reserveFraction
  probeSeed : t'.probeSeed = t.probeSeed
  membership : t'.membership = t.membership
  exceptionalPlacement : t'.exceptionalPlacement = t.exceptionalPlacement

theorem tombstoned_tombstoneSlot : t.Tombstoned slot (t.tombstoneSlot slot) := ⟨rfl, rfl, rfl, rfl, rfl, rfl⟩

theorem tombstoned_extractFinish : t.Tombstoned slot (t.extractFinish slot) := ⟨rfl, rfl, rfl, rfl, rfl, rfl⟩

namespace Tombstoned

variable {e : K × V}

theorem toExtends (h : t.Tombstoned slot t') : t.Extends t' where
  shape := h.shape
  seed := h.probeSeed
  words := by rw [h.membership]
  knows := fun _ hh => by rwa [h.membership]
  exceptional := fun hh => by rwa [h.exceptionalPlacement]
  stops := by
    intro i hi
    rw [h.storage, Region.markTombstone, Region.ctrl_setControl] at hi
    split at hi
    · exact absurd hi ctrlTombstone_ne_ctrlEmpty
    · exact hi

theorem holds (h : t.Tombstoned slot t') {i : Nat} {e : K × V} :
    t'.storage.Holds i e ↔ i ≠ slot ∧ t.storage.Holds i e := by
  rw [h.storage]
  exact Region.holds_setControl isOccupied_ctrlTombstone

theorem entries (h : t.Tombstoned slot t') (he : t.storage.Holds slot e) :
    t.storage.entries.Perm (e :: t'.storage.entries) := by
  rw [h.storage]
  exact Region.entries_setControl he isOccupied_ctrlTombstone

theorem wf (h : t.Tombstoned slot t') (hw : t.Wf) (he : t.storage.Holds slot e)
    (hlen : t.len ≤ t'.len + 1) (hle : t'.len ≤ t.len) : t'.Wf where
  planned := by rw [h.shape, h.reserveFraction]; exact hw.planned
  capacity := by rw [h.storage, h.shape]; exact hw.capacity
  small := by rw [h.shape]; exact hw.small
  filled := by
    rw [h.storage]
    exact Region.filled_setControl hw.filled isOccupied_ctrlTombstone
  padded := by
    intro i hi
    rw [h.storage] at hi ⊢
    rw [Region.markTombstone, Region.ctrl_setControl, if_neg]
    · exact hw.padded i hi
    · rintro rfl
      exact absurd he.1 (Nat.not_lt.mpr hi)
  fits := by
    have := (h.entries he).length_eq
    have := hw.fits
    rw [List.length_cons] at *
    omega
  limit := by
    rw [h.shape]
    exact Nat.le_trans hle hw.limit
  words := by rw [h.membership, h.shape]; exact hw.words
  bins := by
    intro word bin
    rw [h.membership]
    exact (hw.bins word bin).of_shape h.shape

theorem sound (h : t.Tombstoned slot t') (hs : t.Sound u q) : t'.Sound u q := by
  refine hs.mono h.toExtends ?_
  intro i e he
  obtain ⟨hi, he⟩ := h.holds.mp he
  refine ⟨e, rfl, he, ?_⟩
  rw [h.storage, Region.markTombstone, Region.ctrl_setControl, if_neg hi]

theorem counted (h : t.Tombstoned slot t') (hw : t.Wf) (he : t.storage.Holds slot e)
    (hlen : t'.len = t.len - 1) (htomb : t'.tombstones = wrappingInc usizeMax t.tombstones)
    (hc : t.Counted) : t'.Counted where
  len := by
    have := (h.entries he).length_eq
    have := hc.len
    rw [List.length_cons] at *
    omega
  tombstones := by
    have hle := Region.tombstones_and_entries_le hw.filled
    have hsmall := hw.small
    rw [hw.capacity] at hle
    rw [htomb, h.storage, Region.tombstoneCount_mark he, hc.tombstones, wrappingInc, if_neg]
    unfold usizeMax
    omega

end Tombstoned

theorem len_pos (hw : t.Wf) {e : K × V} (he : t.storage.Holds slot e) : 0 < t.len := by
  have := List.length_pos_of_mem (Region.mem_entries.mpr ⟨slot, he⟩)
  have := hw.fits
  omega

end Delete

section Replace

variable {e : K × V} {v : V}

theorem holds_replaceValue (he : t.storage.Holds slot e) {i : Nat} {e' : K × V} :
    (t.replaceValue slot e.1 v).storage.Holds i e' ↔
      (i = slot ∧ e' = (e.1, v)) ∨ (i ≠ slot ∧ t.storage.Holds i e') :=
  Region.holds_setSlot he

theorem entries_replaceValue (he : t.storage.Holds slot e) :
    ∃ rest, t.storage.entries.Perm (e :: rest) ∧
      (t.replaceValue slot e.1 v).storage.entries.Perm ((e.1, v) :: rest) :=
  Region.entries_setSlot he

theorem wf_replaceValue (hw : t.Wf) (he : t.storage.Holds slot e) : (t.replaceValue slot e.1 v).Wf where
  planned := hw.planned
  capacity := hw.capacity
  small := hw.small
  filled := Region.filled_setSlot hw.filled
  padded := hw.padded
  fits := by
    obtain ⟨rest, h, h'⟩ := entries_replaceValue (v := v) he
    have := hw.fits
    rw [h'.length_eq]
    rwa [h.length_eq] at this
  limit := hw.limit
  words := hw.words
  bins := hw.bins

theorem counted_replaceValue (he : t.storage.Holds slot e) (hc : t.Counted) :
    (t.replaceValue slot e.1 v).Counted where
  len := by
    obtain ⟨rest, h, h'⟩ := entries_replaceValue (v := v) he
    have := hc.len
    rw [h'.length_eq]
    rwa [h.length_eq] at this
  tombstones := hc.tombstones

theorem sound_replaceValue (he : t.storage.Holds slot e) (hs : t.Sound u q) :
    (t.replaceValue slot e.1 v).Sound u q := by
  have hext : t.Extends (t.replaceValue slot e.1 v) :=
    ⟨rfl, rfl, rfl, fun _ => id, id, fun _ => id⟩
  refine hs.mono hext ?_
  intro i e' he'
  rcases (holds_replaceValue he).mp he' with ⟨rfl, rfl⟩ | ⟨-, he'⟩
  · exact ⟨e, rfl, he, rfl⟩
  · exact ⟨e', rfl, he', rfl⟩

end Replace

section Wipe

theorem entries_wipeAll : t.wipeAll.storage.entries = [] := Region.entries_clearAllControls

theorem wf_wipeAll (hw : t.Wf) : t.wipeAll.Wf where
  planned := hw.planned
  capacity := hw.capacity
  small := hw.small
  filled := Region.filled_clearAllControls hw.filled
  padded := by
    intro i hi
    have hlast : ¬i < t.storage.capacity := Nat.not_lt.mpr hi
    simpa [wipeAll, finishClear, clearMembership, Region.clearAllControls, hlast] using hw.padded i hi
  fits := by
    rw [entries_wipeAll]
    exact Nat.zero_le _
  limit := Nat.zero_le _
  words := hw.words
  bins := fun _ _ => knownLevels_zero

theorem counted_wipeAll : t.wipeAll.Counted where
  len := by
    rw [entries_wipeAll]
    rfl
  tombstones := (Region.tombstoneCount_clearAllControls (r := t.storage)).symm

theorem blank_wipeAll : t.wipeAll.storage.Blank := Region.blank_clearAllControls (r := t.storage)

theorem sound_of_entries_nil (h : t.storage.entries = []) : t.Sound u q := by
  intro _ slot e he
  have hmem := Region.mem_entries.mpr ⟨slot, he⟩
  rw [h] at hmem
  cases hmem

end Wipe

end Opthash.Funnel.FunnelTable
