import Opthash.Raw.Scan

namespace Opthash.Region

variable {E : Type} {r : Region E} {i : Nat} {e e' : E} {c : UInt8}

def Filled (r : Region E) : Prop := ∀ i, r.Occ i → ∃ e, r.slot i = some e

def Holds (r : Region E) (i : Nat) (e : E) : Prop := i < r.capacity ∧ r.Occ i ∧ r.slot i = some e

def Blank (r : Region E) : Prop := ∀ i < r.capacity, r.ctrl i = ctrlEmpty

theorem Filled.holds (h : r.Filled) (hi : i < r.capacity) (ho : r.Occ i) : ∃ e, r.Holds i e := by
  obtain ⟨e, he⟩ := h i ho
  exact ⟨e, hi, ho, he⟩

theorem Holds.unique (h : r.Holds i e) (h' : r.Holds i e') : e = e' :=
  Option.some.inj (h.2.2.symm.trans h'.2.2)

theorem Holds.view (h : r.Holds i e) : r.view i = some e := (if_pos h.2.1).trans h.2.2

theorem view_eq_some : r.view i = some e ↔ r.Occ i ∧ r.slot i = some e := by
  unfold view Occ
  split <;> simp_all

theorem view_eq_none (h : r.Occ i = false) : r.view i = none := if_neg (by unfold Occ at h; simp [h])

theorem mem_entries : e ∈ r.entries ↔ ∃ i, r.Holds i e := by
  simp only [entries, List.mem_filterMap, List.mem_range, view_eq_some, Holds]

theorem entries_eq (h : r.Filled) :
    r.entries = r.occupied.filterMap r.slot := by
  simp only [entries, occupied, occupiedFrom, Nat.sub_zero, ← List.range_eq_range']
  generalize List.range r.capacity = is
  induction is with
  | nil => rfl
  | cons i is ih =>
    cases ho : r.Occ i with
    | true =>
      obtain ⟨e, he⟩ := h i ho
      rw [List.filter_cons_of_pos ho, List.filterMap_cons, List.filterMap_cons, he,
        view_eq_some.mpr ⟨ho, he⟩, ih]
    | false =>
      rw [List.filter_cons_of_neg (by simp [ho]), List.filterMap_cons, view_eq_none ho, ih]

theorem holds_occupied (h : r.Filled) : List.Forall₂ r.Holds r.occupied r.entries := by
  rw [entries_eq h]
  have hmem : ∀ i ∈ r.occupied, i < r.capacity ∧ r.Occ i := fun i hi => r.mem_occupied.mp hi
  generalize r.occupied = is at hmem
  induction is with
  | nil => exact .nil
  | cons i is ih =>
    obtain ⟨hlt, hocc⟩ := hmem i (List.mem_cons_self ..)
    obtain ⟨e, he⟩ := h i hocc
    rw [List.filterMap_cons, he]
    exact .cons ⟨hlt, hocc, he⟩ (ih fun j hj => hmem j (List.mem_cons_of_mem _ hj))

theorem length_entries (h : r.Filled) : r.entries.length = r.occupied.length := by
  rw [entries_eq h]
  have hmem : ∀ i ∈ r.occupied, ∃ e, r.slot i = some e := fun i hi => h i ((r.mem_occupied).mp hi).2
  generalize r.occupied = is at hmem
  induction is with
  | nil => rfl
  | cons i is ih =>
    obtain ⟨e, he⟩ := hmem i (List.mem_cons_self ..)
    rw [List.filterMap_cons, he]
    exact congrArg Nat.succ (ih fun j hj => hmem j (List.mem_cons_of_mem _ hj))

theorem exists_free (h : r.Filled) (hlt : r.entries.length < r.capacity) :
    ∃ i < r.capacity, isFree (r.ctrl i) := by
  by_contra hno
  have hall : ∀ i ∈ List.range r.capacity, r.Occ i = true := by
    intro i hi
    cases ho : r.Occ i with
    | true => rfl
    | false =>
      refine absurd ⟨i, List.mem_range.mp hi, ?_⟩ hno
      unfold Occ at ho
      simp [isFree_eq_not, ho]
  rw [length_entries h, occupied, occupiedFrom, Nat.sub_zero, ← List.range_eq_range',
    List.filter_eq_self.mpr hall, List.length_range] at hlt
  exact Nat.lt_irrefl _ hlt

theorem occ_of_not_free (h : isFree (r.ctrl i) = false) : r.Occ i = true := by
  unfold Occ
  simpa only [isFree_eq_not, Bool.not_eq_false'] using h

theorem not_occ_of_free (h : isFree (r.ctrl i)) : r.Occ i = false := by
  unfold Occ
  simpa only [isFree_eq_not, Bool.not_eq_true'] using h

theorem not_occ_of_tombstone (h : r.ctrl i = ctrlTombstone) : r.Occ i = false := by simp [Occ, h]

theorem blank_clearAllControls : r.clearAllControls.Blank := fun _ hi => if_pos hi

theorem blank_of_vacant (h : r.Filled) (hentries : r.entries = []) (htombstones : r.tombstoneCount = 0) : r.Blank := by
  intro i hi
  have hfree : isFree (r.ctrl i) = true := by
    by_contra hoccupied
    obtain ⟨e, he⟩ := h.holds hi (occ_of_not_free (Bool.eq_false_iff.mpr hoccupied))
    have hmem := mem_entries.mpr ⟨i, he⟩
    rw [hentries] at hmem
    cases hmem
  refine ((isFree_iff _).mp hfree).resolve_right fun htombstone => ?_
  have hnone := List.countP_eq_zero.mp htombstones i (List.mem_range.mpr hi)
  exact hnone (decide_eq_true htombstone)

section Empty

variable {n : Nat}

@[simp] theorem occ_empty : (empty n : Region E).Occ i = false :=
  isOccupied_ctrlEmpty

@[simp] theorem entries_empty : (empty n : Region E).entries = [] := by
  simp only [entries, List.filterMap_eq_nil_iff]
  intro i _
  exact view_eq_none occ_empty

@[simp] theorem tombstoneCount_empty : (empty n : Region E).tombstoneCount = 0 := by
  simp only [tombstoneCount, List.countP_eq_zero, decide_eq_true_eq]
  intro i _ h
  exact ctrlTombstone_ne_ctrlEmpty h.symm

theorem filled_empty : (empty n : Region E).Filled := fun i h => by simp at h

end Empty

section Write

@[simp] theorem capacity_writeWithControl : (r.writeWithControl i e c).capacity = r.capacity := rfl

theorem ctrl_writeWithControl (j : Nat) :
    (r.writeWithControl i e c).ctrl j = if j = i then c else r.ctrl j := by
  simp [writeWithControl, Function.update_apply]

theorem slot_writeWithControl (j : Nat) :
    (r.writeWithControl i e c).slot j = if j = i then some e else r.slot j := by
  simp [writeWithControl, Function.update_apply]

theorem occ_writeWithControl (hc : isOccupied c) (j : Nat) :
    (r.writeWithControl i e c).Occ j = if j = i then true else r.Occ j := by
  unfold Occ
  rw [ctrl_writeWithControl]
  split <;> simp_all

theorem filled_writeWithControl (h : r.Filled) (hc : isOccupied c) :
    (r.writeWithControl i e c).Filled := by
  intro j hj
  rw [occ_writeWithControl hc] at hj
  rw [slot_writeWithControl]
  split
  · exact ⟨e, rfl⟩
  · rename_i hne
    rw [if_neg hne] at hj
    exact h j hj

theorem holds_writeWithControl (hc : isOccupied c) {j : Nat} {e' : E} :
    (r.writeWithControl i e c).Holds j e' ↔
      (j = i ∧ i < r.capacity ∧ e' = e) ∨ (j ≠ i ∧ r.Holds j e') := by
  unfold Holds
  rw [occ_writeWithControl hc, slot_writeWithControl, capacity_writeWithControl]
  by_cases hj : j = i
  · subst hj
    simp only [↓reduceIte, true_and, Option.some.injEq, ne_eq, not_true_eq_false, false_and, or_false]
    exact and_congr_right fun _ => eq_comm
  · simp only [hj, ↓reduceIte, false_and, false_or, ne_eq, not_false_eq_true, true_and]

theorem entries_writeWithControl (hi : i < r.capacity) (hfree : r.Occ i = false) (hc : isOccupied c) :
    (r.writeWithControl i e c).entries.Perm (e :: r.entries) := by
  apply Slots.filterMap_fill List.nodup_range (List.mem_range.mpr hi) (view_eq_none hfree)
  · rw [view_eq_some, occ_writeWithControl hc, slot_writeWithControl]
    simp
  · intro j hj
    unfold view
    rw [ctrl_writeWithControl, slot_writeWithControl, if_neg hj, if_neg hj]

theorem occupied_eq_filterMap (r : Region E) :
    r.occupied = (List.range r.capacity).filterMap fun i => if r.Occ i then some i else none := by
  rw [occupied, occupiedFrom, Nat.sub_zero, ← List.range_eq_range']
  generalize List.range r.capacity = is
  induction is with
  | nil => rfl
  | cons i is ih =>
    rw [List.filter_cons, List.filterMap_cons]
    split <;> simp_all

theorem occupied_writeWithControl (hi : i < r.capacity) (hfree : r.Occ i = false) (hc : isOccupied c) :
    (r.writeWithControl i e c).occupied.Perm (i :: r.occupied) := by
  rw [occupied_eq_filterMap, occupied_eq_filterMap]
  apply Slots.filterMap_fill List.nodup_range (List.mem_range.mpr hi)
  · simp [hfree]
  · simp [occ_writeWithControl hc]
  · intro j hj
    simp [occ_writeWithControl hc, hj]

theorem tombstoneCount_writeWithControl (hi : i < r.capacity) (hc : c ≠ ctrlTombstone) :
    (r.writeWithControl i e c).tombstoneCount + (if r.ctrl i = ctrlTombstone then 1 else 0) =
      r.tombstoneCount := by
  have h := Slots.countP_update (p := fun j => decide (r.ctrl j = ctrlTombstone))
    (q := fun j => decide ((r.writeWithControl i e c).ctrl j = ctrlTombstone))
    List.nodup_range (List.mem_range.mpr hi) (fun j hj => by rw [ctrl_writeWithControl, if_neg hj])
  simp only [ctrl_writeWithControl, ↓reduceIte, hc, decide_false, Bool.false_eq_true, Nat.add_zero,
    decide_eq_true_eq] at h
  simpa only [tombstoneCount, capacity_writeWithControl, ctrl_writeWithControl] using h

end Write

section Control

@[simp] theorem capacity_setControl : (r.setControl i c).capacity = r.capacity := rfl

@[simp] theorem slot_setControl : (r.setControl i c).slot = r.slot := rfl

theorem ctrl_setControl (j : Nat) : (r.setControl i c).ctrl j = if j = i then c else r.ctrl j := by
  simp [setControl, Function.update_apply]

theorem occ_setControl (hc : isOccupied c = false) (j : Nat) :
    (r.setControl i c).Occ j = if j = i then false else r.Occ j := by
  unfold Occ
  rw [ctrl_setControl]
  split <;> simp_all

theorem filled_setControl (h : r.Filled) (hc : isOccupied c = false) : (r.setControl i c).Filled := by
  intro j hj
  rw [occ_setControl hc] at hj
  split at hj
  · cases hj
  · exact h j hj

theorem holds_setControl (hc : isOccupied c = false) {j : Nat} {e : E} :
    (r.setControl i c).Holds j e ↔ j ≠ i ∧ r.Holds j e := by
  unfold Holds
  rw [occ_setControl hc]
  by_cases hj : j = i <;> simp [hj]

theorem entries_setControl (h : r.Holds i e) (hc : isOccupied c = false) :
    r.entries.Perm (e :: (r.setControl i c).entries) := by
  apply Slots.filterMap_fill List.nodup_range (List.mem_range.mpr h.1) (f := (r.setControl i c).view)
  · apply view_eq_none
    rw [occ_setControl hc, if_pos rfl]
  · exact h.view
  · intro j hj
    unfold view
    rw [ctrl_setControl, if_neg hj]
    rfl

theorem tombstoneCount_setControl (hi : i < r.capacity) :
    (r.setControl i c).tombstoneCount + (if r.ctrl i = ctrlTombstone then 1 else 0) =
      r.tombstoneCount + (if c = ctrlTombstone then 1 else 0) := by
  have h := Slots.countP_update (p := fun j => decide (r.ctrl j = ctrlTombstone))
    (q := fun j => decide ((r.setControl i c).ctrl j = ctrlTombstone))
    List.nodup_range (List.mem_range.mpr hi) (fun j hj => by rw [ctrl_setControl, if_neg hj])
  simp only [ctrl_setControl, ↓reduceIte, decide_eq_true_eq] at h
  simpa only [tombstoneCount, capacity_setControl, ctrl_setControl] using h

theorem tombstoneCount_mark (h : r.Holds i e) :
    (r.markTombstone i).tombstoneCount = r.tombstoneCount + 1 := by
  have hne : r.ctrl i ≠ ctrlTombstone := by
    intro h'
    have := h.2.1
    simp [Occ, h'] at this
  have := tombstoneCount_setControl (r := r) (c := ctrlTombstone) h.1
  rw [markTombstone]
  simpa only [hne, if_false, if_true, Nat.add_zero] using this

theorem tombstoneCount_empty_slot (h : r.Holds i e) :
    (r.setControl i ctrlEmpty).tombstoneCount = r.tombstoneCount := by
  have hne : r.ctrl i ≠ ctrlTombstone := by
    intro h'
    have := h.2.1
    simp [Occ, h'] at this
  have := tombstoneCount_setControl (r := r) (c := ctrlEmpty) h.1
  simpa [hne, ctrlTombstone_ne_ctrlEmpty.symm] using this

end Control

section Replace

@[simp] theorem capacity_setSlot : (r.setSlot i e).capacity = r.capacity := rfl

theorem occ_setSlot (j : Nat) : (r.setSlot i e).Occ j = r.Occ j := rfl

theorem slot_setSlot (j : Nat) : (r.setSlot i e).slot j = if j = i then some e else r.slot j := by
  simp [setSlot, Function.update_apply]

theorem holds_setSlot (h : r.Holds i e) {j : Nat} {e'' : E} :
    (r.setSlot i e').Holds j e'' ↔ (j = i ∧ e'' = e') ∨ (j ≠ i ∧ r.Holds j e'') := by
  unfold Holds
  rw [capacity_setSlot, occ_setSlot, slot_setSlot]
  by_cases hj : j = i
  · subst hj
    simp only [h.1, h.2.1, ↓reduceIte, Option.some.injEq, true_and, ne_eq, not_true_eq_false, false_and, or_false]
    exact eq_comm
  · simp only [hj, ↓reduceIte, false_and, ne_eq, not_false_eq_true, true_and, false_or]

theorem filled_setSlot (h : r.Filled) : (r.setSlot i e).Filled := by
  intro j hj
  rw [slot_setSlot]
  split
  · exact ⟨e, rfl⟩
  · exact h j hj

theorem entries_setSlot (h : r.Holds i e) :
    ∃ rest, r.entries.Perm (e :: rest) ∧ (r.setSlot i e').entries.Perm (e' :: rest) := by
  apply Slots.filterMap_replace List.nodup_range (List.mem_range.mpr h.1) h.view
  · rw [view_eq_some, occ_setSlot, slot_setSlot]
    exact ⟨h.2.1, if_pos rfl⟩
  · intro j hj
    unfold view
    rw [slot_setSlot, if_neg hj]
    rfl

end Replace

section Clear

theorem occ_clearAllControls (h : i < r.capacity) : r.clearAllControls.Occ i = false := by
  simp [Occ, clearAllControls, h]

theorem ctrl_clearAllControls (h : i < r.capacity) : r.clearAllControls.ctrl i = ctrlEmpty := if_pos h

@[simp] theorem entries_clearAllControls : r.clearAllControls.entries = [] := by
  simp only [entries, List.filterMap_eq_nil_iff]
  intro i hi
  exact view_eq_none (occ_clearAllControls (List.mem_range.mp hi))

@[simp] theorem tombstoneCount_clearAllControls : r.clearAllControls.tombstoneCount = 0 := by
  simp only [tombstoneCount, List.countP_eq_zero, decide_eq_true_eq]
  intro i hi h
  rw [ctrl_clearAllControls (r := r) (List.mem_range.mp hi)] at h
  exact ctrlTombstone_ne_ctrlEmpty h.symm

theorem filled_clearAllControls (h : r.Filled) : r.clearAllControls.Filled := by
  intro j hj
  rcases Nat.lt_or_ge j r.capacity with hlt | hge
  · rw [occ_clearAllControls hlt] at hj
    cases hj
  · refine h j ?_
    simpa [Occ, clearAllControls, Nat.not_lt.mpr hge] using hj

end Clear

theorem tombstones_and_entries_le (h : r.Filled) : r.tombstoneCount + r.entries.length ≤ r.capacity := by
  rw [length_entries h, occupied, occupiedFrom, Nat.sub_zero, ← List.range_eq_range',
    ← List.countP_eq_length_filter, tombstoneCount]
  have hle : ∀ is : List Nat, is.countP (fun i => decide (r.ctrl i = ctrlTombstone)) + is.countP r.Occ ≤
      is.length := by
    intro is
    induction is with
    | nil => simp
    | cons i is ih =>
      simp only [List.countP_cons, List.length_cons]
      by_cases hi : r.ctrl i = ctrlTombstone
      · rw [not_occ_of_tombstone hi, if_pos (by simpa using hi), if_neg Bool.false_ne_true]
        omega
      · rw [if_neg (by simpa using hi)]
        split <;> omega
  simpa using hle (List.range r.capacity)

end Opthash.Region
