import Opthash.Lib.Cursors
import Opthash.Lib.Slots
import Opthash.Raw.Arena

namespace Opthash

namespace Region

variable {E : Type} (r : Region E)

def Occ (i : Nat) : Bool := isOccupied (r.ctrl i)

def occupiedFrom (start : Nat) : List Nat :=
  (List.range' start (r.capacity - start)).filter r.Occ

def occupied : List Nat := r.occupiedFrom 0

def Padded : Prop := ∀ i, r.capacity ≤ i → r.ctrl i = ctrlEmpty

structure Scannable (padded : Bool) : Prop where
  small : r.capacity ≤ 2 ^ 63
  tail : padded = true → r.Padded

/-- What a scan reads: control bytes of one allocation, so no more than `isize::MAX`, and a padding that never reads
occupied. -/
structure Readable (group : GroupBackend) (padded : Bool) : Prop where
  small : r.capacity ≤ 2 ^ 63
  tail : padded = true → ∀ i, r.capacity ≤ i → i < r.capacity + group.groupSize - 1 → r.Occ i = false

theorem Padded.free {r : Region E} (h : r.Padded) {i : Nat} (hi : r.capacity ≤ i) : r.Occ i = false := by
  rw [Occ, h i hi]
  exact isOccupied_ctrlEmpty

theorem Scannable.readable {r : Region E} {group : GroupBackend} {padded : Bool} (h : r.Scannable padded) :
    r.Readable group padded := ⟨h.small, fun hpadded _ hi _ => (h.tail hpadded).free hi⟩

theorem mem_occupiedFrom {start i : Nat} :
    i ∈ r.occupiedFrom start ↔ start ≤ i ∧ i < r.capacity ∧ r.Occ i := by
  simp only [occupiedFrom, List.mem_filter, List.mem_range'_1]
  constructor
  · rintro ⟨⟨hs, hi⟩, ho⟩
    exact ⟨hs, by omega, ho⟩
  · rintro ⟨hs, hi, ho⟩
    exact ⟨⟨hs, by omega⟩, ho⟩

theorem mem_occupied {i : Nat} : i ∈ r.occupied ↔ i < r.capacity ∧ r.Occ i := by
  simp [occupied, mem_occupiedFrom]

theorem occupiedFrom_nodup (start : Nat) : (r.occupiedFrom start).Nodup :=
  List.Nodup.filter _ (List.nodup_range' 1)

theorem occupiedFrom_length_le (start : Nat) : (r.occupiedFrom start).length ≤ r.capacity := by
  refine Nat.le_trans (List.length_filter_le _ _) ?_
  simp

theorem occupiedFrom_eq_nil {start : Nat} (h : r.capacity ≤ start) : r.occupiedFrom start = [] := by
  simp [occupiedFrom, Nat.sub_eq_zero_of_le h]

theorem occupiedFrom_congr {r' : Region E} {start : Nat} (hc : r'.capacity = r.capacity)
    (ho : ∀ i, start ≤ i → r'.Occ i = r.Occ i) : r'.occupiedFrom start = r.occupiedFrom start := by
  simp only [occupiedFrom, hc]
  apply List.filter_congr
  intro i hi
  exact ho i (List.mem_range'_1.mp hi).1

theorem occupiedFrom_succ {start : Nat} (h : start < r.capacity) :
    r.occupiedFrom start =
      if r.Occ start then start :: r.occupiedFrom (start + 1) else r.occupiedFrom (start + 1) := by
  have hlen : r.capacity - start = r.capacity - (start + 1) + 1 := by omega
  rw [occupiedFrom, hlen, List.range'_succ, List.filter_cons]
  rfl

theorem occupiedFrom_eq_cons {r : Region E} {next slot : Nat} {rest : List Nat} (h : r.occupiedFrom next = slot :: rest) :
    (List.range' next (r.capacity - next)).find? r.Occ = some slot ∧ r.occupiedFrom (slot + 1) = rest := by
  refine ⟨by rw [← List.head?_filter, ← occupiedFrom, h]; rfl, ?_⟩
  induction hn : r.capacity - next generalizing next with
  | zero =>
    rw [r.occupiedFrom_eq_nil (Nat.le_of_sub_eq_zero hn)] at h
    cases h
  | succ n ih =>
    rw [r.occupiedFrom_succ (by omega)] at h
    split at h
    · obtain ⟨rfl, hrest⟩ := List.cons.inj h
      exact hrest
    · exact ih h (by omega)

theorem occupiedFrom_split (start lanes : Nat) (h : start + lanes ≤ r.capacity) :
    r.occupiedFrom start =
      ((List.range lanes).filter (fun lane => r.Occ (start + lane))).map (start + ·) ++
        r.occupiedFrom (start + lanes) := by
  have hlen : r.capacity - start = lanes + (r.capacity - (start + lanes)) := by omega
  simp only [occupiedFrom]
  rw [hlen, ← List.range'_append_1, List.filter_append]
  congr 1
  rw [List.range'_eq_map_range, List.filter_map]
  rfl

end Region

namespace OccupiedIndices

variable {E : Type} (group : GroupBackend) (padded : Bool)

def next (c : OccupiedIndices) : Nat := (c.currentGroupSlot + group.groupSize) % 2 ^ 64

def pending (r : Region E) (c : OccupiedIndices) : List Nat :=
  c.currentMask.map (c.currentGroupSlot + ·) ++ r.occupiedFrom (c.next group)

structure Valid (c : OccupiedIndices) : Prop where
  lanes : ∀ lane ∈ c.currentMask, c.currentGroupSlot + lane < c.next group

variable {group padded}

theorem next_new : (OccupiedIndices.new group).next group = 0 := by
  cases group <;> rfl

theorem pending_new (r : Region E) : (OccupiedIndices.new group).pending group r = r.occupied := by
  rw [pending, next_new]
  rfl

theorem valid_new : (OccupiedIndices.new group).Valid group := ⟨fun _ h => by cases h⟩

theorem next_load {r : Region E} (hr : r.Readable group padded) {start : Nat} (hs : start < r.capacity) :
    (⟨start, occupiedMask group padded r start⟩ : OccupiedIndices).next group =
      start + group.groupSize := by
  have := group.groupSize_le
  have := hr.small
  exact Nat.mod_eq_of_lt (by simp only; omega)

theorem occupiedMask_padded {r : Region E} {start : Nat} :
    occupiedMask group true r start =
      (List.range group.groupSize).filter (fun lane => r.Occ (start + lane)) := rfl

theorem pending_load {r : Region E} (hr : r.Readable group padded) {start : Nat} (hs : start < r.capacity) :
    (⟨start, occupiedMask group padded r start⟩ : OccupiedIndices).pending group r =
      r.occupiedFrom start := by
  rw [pending, next_load hr hs]
  dsimp only
  rcases Nat.lt_or_ge r.capacity (start + group.groupSize) with hlt | hge
  · -- The region ends inside the group; a padded load reads the padding too.
    have hlanes : start + (r.capacity - start) = r.capacity := by omega
    have hmask : occupiedMask group padded r start =
        (List.range (r.capacity - start)).filter (fun lane => r.Occ (start + lane)) := by
      cases padded with
      | false =>
        simp only [occupiedMask, Bool.false_eq_true, if_false]
        rw [Nat.min_eq_right (by omega)]
        rfl
      | true =>
        have hsize : group.groupSize = r.capacity - start + (group.groupSize - (r.capacity - start)) := by
          omega
        have hpadding : ((List.range (group.groupSize - (r.capacity - start))).map
            (r.capacity - start + ·)).filter (fun lane => r.Occ (start + lane)) = [] := by
          apply List.filter_eq_nil_iff.mpr
          intro lane hlane
          obtain ⟨i, hi, rfl⟩ := List.mem_map.mp hlane
          rw [hr.tail rfl _ (by omega) (by have := List.mem_range.mp hi; omega)]
          exact Bool.false_ne_true
        rw [occupiedMask_padded, hsize, List.range_add, List.filter_append, hpadding,
          List.append_nil]
    rw [hmask, r.occupiedFrom_split start (r.capacity - start) (by omega), hlanes,
      r.occupiedFrom_eq_nil (Nat.le_of_lt hlt), r.occupiedFrom_eq_nil (Nat.le_refl _)]
  · rw [r.occupiedFrom_split start group.groupSize hge]
    cases padded with
    | false =>
      simp only [occupiedMask, Bool.false_eq_true, if_false]
      rw [Nat.min_eq_left (by omega)]
      rfl
    | true => rfl

theorem valid_load {r : Region E} (hr : r.Readable group padded) {start : Nat} (hs : start < r.capacity) :
    (⟨start, occupiedMask group padded r start⟩ : OccupiedIndices).Valid group := by
  constructor
  intro lane hlane
  rw [next_load hr hs]
  have hmem := List.mem_range.mp (List.mem_filter.mp hlane).1
  dsimp only
  split at hmem <;> omega

theorem stepFuel_spec {r : Region E} (hr : r.Readable group padded) {fuel : Nat} {c : OccupiedIndices}
    (hc : c.Valid group) (hfuel : r.capacity - c.next group + 1 ≤ fuel) :
    (stepFuel group padded r fuel c).1 = (c.pending group r).head? ∧
      (stepFuel group padded r fuel c).2.pending group r = (c.pending group r).tail ∧
      (stepFuel group padded r fuel c).2.Valid group ∧
      ∀ slot, (stepFuel group padded r fuel c).1 = some slot →
        slot < (stepFuel group padded r fuel c).2.next group := by
  induction fuel generalizing c with
  | zero => omega
  | succ fuel ih =>
    obtain ⟨slot, mask⟩ := c
    cases mask with
    | cons bit mask =>
      refine ⟨rfl, rfl, ⟨fun lane h => hc.lanes lane (List.mem_cons_of_mem _ h)⟩, ?_⟩
      rintro _ ⟨⟩
      exact hc.lanes bit (List.mem_cons_self ..)
    | nil =>
      have hnext : (slot + group.groupSize) % 2 ^ 64 = (⟨slot, []⟩ : OccupiedIndices).next group := rfl
      simp only [stepFuel, hnext]
      generalize hstart : (⟨slot, []⟩ : OccupiedIndices).next group = start at hfuel
      have hpending : (⟨slot, []⟩ : OccupiedIndices).pending group r = r.occupiedFrom start := by
        rw [pending, hstart]
        rfl
      rw [hpending]
      split
      · rename_i hge
        rw [r.occupiedFrom_eq_nil hge]
        exact ⟨rfl, hpending.trans (r.occupiedFrom_eq_nil hge), hc, fun _ h => by cases h⟩
      · rename_i hlt
        have hlt : start < r.capacity := by omega
        have := group.groupSize_pos
        have hload : (⟨start, occupiedMask group padded r start⟩ : OccupiedIndices).pending group r =
            r.occupiedFrom start := pending_load hr hlt
        rw [← hload]
        exact ih (valid_load hr hlt) (by rw [next_load hr hlt]; omega)

theorem step_spec {r : Region E} (hr : r.Readable group padded) {c : OccupiedIndices} (hc : c.Valid group) :
    (step group padded r c).1 = (c.pending group r).head? ∧
      (step group padded r c).2.pending group r = (c.pending group r).tail ∧
      (step group padded r c).2.Valid group ∧
      ∀ slot, (step group padded r c).1 = some slot → slot < (step group padded r c).2.next group :=
  stepFuel_spec hr hc (by omega)

theorem pending_congr {r r' : Region E} {c : OccupiedIndices} (hc : r'.capacity = r.capacity)
    (ho : ∀ i, c.next group ≤ i → r'.Occ i = r.Occ i) : c.pending group r' = c.pending group r := by
  rw [pending, pending, r.occupiedFrom_congr hc ho]

theorem next_le_stepFuel {r : Region E} (hr : r.Readable group padded) {fuel : Nat} {c : OccupiedIndices} :
    c.next group ≤ (stepFuel group padded r fuel c).2.next group := by
  induction fuel generalizing c with
  | zero => exact Nat.le_refl _
  | succ fuel ih =>
    obtain ⟨slot, mask⟩ := c
    cases mask with
    | cons bit mask => exact Nat.le_refl _
    | nil =>
      rw [stepFuel]
      dsimp only
      split
      · exact Nat.le_refl _
      · rename_i hlt
        have hload := next_load hr (Nat.lt_of_not_le hlt)
        calc (slot + group.groupSize) % 2 ^ 64
            ≤ (slot + group.groupSize) % 2 ^ 64 + group.groupSize := Nat.le_add_right ..
          _ = _ := hload.symm
          _ ≤ _ := ih

theorem next_le_step {r : Region E} (hr : r.Readable group padded) {c : OccupiedIndices} :
    c.next group ≤ (step group padded r c).2.next group := next_le_stepFuel hr

theorem ordered_step (group : GroupBackend) (padded : Bool) : Cursors.Ordered (step (E := E) group padded)
    (fun r r' => r'.capacity = r.capacity ∧ r'.Readable group padded) (fun r r' i => r'.Occ i = r.Occ i)
    (fun c i => i < c.next group)
    (fun r c slots => r.Readable group padded ∧ c.Valid group ∧ c.pending group r = slots) where
  yields := by
    rintro r c _ ⟨hr, hc, rfl⟩
    exact (step_spec hr hc).1
  passes := by
    rintro r c _ i ⟨hr, hc, -⟩ (hyield | hpassed)
    · exact (step_spec hr hc).2.2.2 i hyield
    · exact Nat.lt_of_lt_of_le hpassed (next_le_step hr)
  advances := by
    rintro r c _ r' ⟨hr, hc, rfl⟩ ⟨hcap, hr'⟩ hsame
    obtain ⟨-, htail, hvalid, -⟩ := step_spec hr hc
    exact ⟨hr', hvalid, (pending_congr hcap fun i hi => hsame i (Nat.not_lt_of_le hi)).trans htail⟩

end OccupiedIndices

section Loops

open Exec

variable {ε σ E α : Type} {group : GroupBackend} {padded : Bool} {region : σ → Region E}
  {body : α → Nat → Exec ε σ α} {Q : α → σ → Prop} {R : ε → σ → Prop}

/-- What a scan asks of its body at `slot`: the other slots stay occupied or free. -/
structure Region.Undisturbed (padded : Bool) (slot : Nat) (r r' : Region E) : Prop where
  capacity : r'.capacity = r.capacity
  scannable : r'.Scannable padded
  others : ∀ i, i ≠ slot → r'.Occ i = r.Occ i

theorem wp_scanWhile (I : List Nat → α → σ → Prop)
    (step : ∀ slot rest a s, I (slot :: rest) a s → wp (body a slot)
      (fun a' s' => I rest a' s' ∧ (region s).Undisturbed padded slot (region s')) R s)
    (done : ∀ a s, I [] a s → Q a s) {fuel : Nat} {c : OccupiedIndices} {a : α} {s : σ}
    (hr : (region s).Scannable padded) (hc : c.Valid group)
    (hfuel : (c.pending group (region s)).length < fuel) (h : I (c.pending group (region s)) a s) :
    wp (scanWhile group padded region body fuel c a) Q R s := by
  induction fuel generalizing c a s with
  | zero => omega
  | succ fuel ih =>
    obtain ⟨hhead, htail, hvalid, hslot⟩ := OccupiedIndices.step_spec hr.readable hc
    rw [scanWhile, Exec.wp_bind, Exec.wp_get]
    generalize OccupiedIndices.step group padded (region s) c = result at hhead htail hvalid hslot
    obtain ⟨yielded, c'⟩ := result
    cases hpending : c.pending group (region s) with
    | nil =>
      rw [hpending] at hhead h
      obtain rfl : yielded = none := hhead
      exact done a s h
    | cons slot rest =>
      rw [hpending] at hhead htail h hfuel
      obtain rfl : yielded = some slot := hhead
      dsimp only at htail hslot ⊢
      rw [List.tail_cons] at htail
      rw [Exec.wp_bind]
      refine Exec.wp_mono (step slot rest a s h) ?_ (fun _ _ => id)
      rintro a' s' ⟨hI, hframe⟩
      have hrest : c'.pending group (region s') = rest := by
        rw [← htail]
        refine OccupiedIndices.pending_congr hframe.capacity fun i hi => hframe.others i ?_
        have := hslot slot rfl
        omega
      apply ih hframe.scannable hvalid
      · rw [hrest]
        simp only [List.length_cons] at hfuel
        omega
      · rwa [hrest]

theorem wp_forOccupied (I : List Nat → α → σ → Prop)
    (step : ∀ slot rest a s, I (slot :: rest) a s → wp (body a slot)
      (fun a' s' => I rest a' s' ∧ (region s).Undisturbed padded slot (region s')) R s)
    (done : ∀ a s, I [] a s → Q a s) {a : α} {s : σ} (hr : (region s).Scannable padded)
    (h : I (region s).occupied a s) : wp (forOccupied group padded region body a) Q R s := by
  rw [forOccupied, Exec.wp_bind, Exec.wp_get]
  refine wp_scanWhile I step done hr OccupiedIndices.valid_new ?_ ?_ <;>
    rw [OccupiedIndices.pending_new]
  · exact Nat.lt_succ_of_le ((region s).occupiedFrom_length_le 0)
  · exact h

theorem occupiedSlotsFrom_eq {r : Region E} (hr : r.Scannable padded) {fuel : Nat}
    {c : OccupiedIndices} (hc : c.Valid group) (hfuel : (c.pending group r).length < fuel) :
    occupiedSlotsFrom group padded r fuel c = c.pending group r := by
  induction fuel generalizing c with
  | zero => omega
  | succ fuel ih =>
    obtain ⟨hhead, htail, hvalid, -⟩ := OccupiedIndices.step_spec hr.readable hc
    rw [occupiedSlotsFrom]
    generalize OccupiedIndices.step group padded r c = result at hhead htail hvalid
    obtain ⟨yielded, c'⟩ := result
    cases hpending : c.pending group r with
    | nil =>
      rw [hpending] at hhead
      obtain rfl : yielded = none := hhead
      rfl
    | cons slot rest =>
      rw [hpending] at hhead htail hfuel
      obtain rfl : yielded = some slot := hhead
      dsimp only at htail ⊢
      rw [List.tail_cons] at htail
      rw [ih hvalid (by rw [htail]; simpa using hfuel), htail]

theorem occupiedSlots_eq {r : Region E} (hr : r.Scannable padded) :
    occupiedSlots group padded r = r.occupied := by
  rw [occupiedSlots, occupiedSlotsFrom_eq hr OccupiedIndices.valid_new,
    OccupiedIndices.pending_new]
  rw [OccupiedIndices.pending_new]
  exact Nat.lt_succ_of_le (r.occupiedFrom_length_le 0)

end Loops

end Opthash
