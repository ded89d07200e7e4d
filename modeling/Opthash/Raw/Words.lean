import Opthash.Raw.Arena
import Opthash.Raw.Masks

namespace Opthash

open Cursors BitMask

variable {group : GroupBackend} {padded : Bool} {E : Type}

/-- The final partial group of `occupied_mask`: scalar reads, and one bit for each occupied lane. -/
def tailMask (group : GroupBackend) (ctrl : Nat → UInt8) (start remaining : Nat) : UInt64 :=
  (List.range remaining).foldl
    (fun mask index =>
      if isOccupied (ctrl (start + index)) then mask ||| (1 <<< UInt64.ofNat (index * bitmaskStride group)) else mask) 0

/-- `load` is the group's `occupied_mask_group`. -/
def occupiedWord (group : GroupBackend) (load : (Nat → UInt8) → Nat → BitMask) (padded : Bool) (r : Region E)
    (start : Nat) : BitMask :=
  if padded || decide (group.groupSize ≤ r.capacity - start) then load r.ctrl start
  else ⟨tailMask group r.ctrl start (r.capacity - start)⟩

/-- The scanner as the code holds it, with a mask word for the lanes. -/
structure OccupiedWords where
  currentGroupSlot : Nat
  currentMask : BitMask

namespace OccupiedWords

def new (group : GroupBackend) : OccupiedWords := ⟨2 ^ 64 - group.groupSize, ⟨0⟩⟩

def stepFuel (group : GroupBackend) (load : (Nat → UInt8) → Nat → BitMask) (padded : Bool) (r : Region E) :
    Nat → OccupiedWords → Option Nat × OccupiedWords
  | 0, c => (none, c)
  | fuel + 1, c =>
    match c.currentMask.next group with
    | (some bit, mask) => (some (c.currentGroupSlot + bit), { c with currentMask := mask })
    | (none, _) =>
      let nextGroup := (c.currentGroupSlot + group.groupSize) % 2 ^ 64
      if nextGroup ≥ r.capacity then (none, c)
      else stepFuel group load padded r fuel ⟨nextGroup, occupiedWord group load padded r nextGroup⟩

def step (group : GroupBackend) (load : (Nat → UInt8) → Nat → BitMask) (padded : Bool) (r : Region E)
    (c : OccupiedWords) : Option Nat × OccupiedWords :=
  stepFuel group load padded r (r.capacity + 2) c

end OccupiedWords

namespace BitMask

variable {m : BitMask} {ls : List Nat}

def Reads (group : GroupBackend) (m : BitMask) (ls : List Nat) : Prop :=
  ∃ bits first p, Pattern group bits first ∧ m.Marks group bits p ∧ lanes group p = ls

theorem Reads.next (h : m.Reads group ls) : (m.next group).1 = ls.head? ∧ (m.next group).2.Reads group ls.tail := by
  obtain ⟨bits, first, p, hb, hmarks, rfl⟩ := h
  cases hlanes : lanes group p with
  | nil =>
    rw [hmarks.next_nil hlanes]
    exact ⟨rfl, bits, first, p, hb, hmarks, hlanes⟩
  | cons i rest =>
    obtain ⟨hi, hrest⟩ := hmarks.next_cons hb hlanes
    exact ⟨hi, bits, first, _, hb, hrest, (lanes_eq_cons hlanes).2.2.2.2⟩

theorem Flags.reads {p : Nat → Bool} (h : m.Flags group p) : m.Reads group (lanes group p) :=
  ⟨_, _, p, pattern_flagBit group, h, rfl⟩

theorem pattern_zero (group : GroupBackend) : Pattern group (fun bit => bit == 0) 0 :=
  .of_single (bitmaskStride_pos group) rfl (fun _ => rfl) fun _ _ h => beq_iff_eq.mp h

theorem reads_zero (group : GroupBackend) : (⟨0⟩ : BitMask).Reads group [] := by
  refine ⟨_, _, fun _ => false, pattern_zero group, fun j _ => ?_, List.filter_false _⟩
  rw [Bool.and_false, Bool.false_and]
  exact Nat.zero_testBit j

theorem testBit_setBit (word : UInt64) {b j : Nat} (hb : b < 64) (hj : j < 64) :
    (word ||| (1 <<< UInt64.ofNat b)).toNat.testBit j = (word.toNat.testBit j || decide (b = j)) := by
  have hshift : (UInt64.ofNat b).toNat % 64 = b := by
    rw [UInt64.toNat_ofNat']
    omega
  rw [UInt64.toNat_or, Nat.testBit_or, UInt64.toNat_shiftLeft, hshift, Nat.testBit_mod_two_pow, decide_eq_true hj,
    Bool.true_and]
  change (_ || (1 <<< b).testBit j) = _
  rw [Nat.one_shiftLeft, Nat.testBit_two_pow]

theorem marks_tailMask (ctrl : Nat → UInt8) (start : Nat) {n : Nat} (hn : n ≤ group.groupSize) :
    (⟨tailMask group ctrl start n⟩ : BitMask).Marks group (fun bit => bit == 0)
      fun lane => decide (lane < n) && isOccupied (ctrl (start + lane)) := by
  intro j hj
  induction n with
  | zero =>
    dsimp only
    rw [decide_eq_false (Nat.not_lt_zero _), Bool.false_and, Bool.and_false, Bool.false_and]
    exact Nat.zero_testBit j
  | succ n ih =>
    have hn : n < group.groupSize := hn
    have hbelow := ih (Nat.le_of_lt hn)
    dsimp only at hbelow ⊢
    have hpos := bitmaskStride_pos group
    have hbit : n * bitmaskStride group < 64 := by
      have := firstBit_lt (pattern_zero group) hn
      rwa [firstBit, Nat.add_zero, Nat.mul_comm] at this
    have hsplit : tailMask group ctrl start (n + 1) =
        if isOccupied (ctrl (start + n)) then
          tailMask group ctrl start n ||| (1 <<< UInt64.ofNat (n * bitmaskStride group))
        else tailMask group ctrl start n := by
      rw [tailMask, List.range_succ, List.foldl_append]
      rfl
    by_cases hlane : j / bitmaskStride group = n
    · -- The bits of lane `n` are as the loop has just left them.
      have hlow : (tailMask group ctrl start n).toNat.testBit j = false := by
        rw [hbelow, hlane, decide_eq_false (Nat.lt_irrefl n), Bool.false_and, Bool.and_false, Bool.false_and]
      have hset : decide (n * bitmaskStride group = j) = (j % bitmaskStride group == 0) := by
        have hdiv := Nat.div_add_mod j (bitmaskStride group)
        rw [hlane, Nat.mul_comm] at hdiv
        apply Bool.eq_iff_iff.mpr
        rw [decide_eq_true_iff, beq_iff_eq]
        omega
      rw [hlane, decide_eq_true hn, decide_eq_true (Nat.lt_succ_self n), Bool.true_and, Bool.true_and, hsplit]
      cases isOccupied (ctrl (start + n)) with
      | true => rw [if_pos rfl, testBit_setBit _ hbit hj, hlow, hset, Bool.false_or, Bool.true_and]
      | false => rw [if_neg Bool.false_ne_true, hlow, Bool.false_and]
    · have hother : (tailMask group ctrl start (n + 1)).toNat.testBit j =
          (tailMask group ctrl start n).toNat.testBit j := by
        have hne : n * bitmaskStride group ≠ j := by
          rintro rfl
          exact hlane (Nat.mul_div_cancel n hpos)
        rw [hsplit]
        split
        · rw [testBit_setBit _ hbit hj, decide_eq_false hne, Bool.or_false]
        · rfl
      have hlt : decide (j / bitmaskStride group < n + 1) = decide (j / bitmaskStride group < n) := by
        apply decide_eq_decide.mpr
        omega
      rw [hother, hlt]
      exact hbelow

theorem lanes_below {n : Nat} (q : Nat → Bool) (hn : n ≤ group.groupSize) :
    lanes group (fun lane => decide (lane < n) && q lane) = (List.range n).filter q := by
  have hsize : group.groupSize = n + (group.groupSize - n) := (Nat.add_sub_cancel' hn).symm
  rw [lanes, hsize, List.range_add, List.filter_append]
  have hrest : ((List.range (group.groupSize - n)).map (n + ·)).filter (fun lane => decide (lane < n) && q lane) = [] := by
    apply List.filter_eq_nil_iff.mpr
    intro lane hlane
    obtain ⟨i, -, rfl⟩ := List.mem_map.mp hlane
    rw [decide_eq_false (by omega), Bool.false_and]
    exact Bool.false_ne_true
  rw [hrest, List.append_nil]
  apply List.filter_congr
  intro lane hlane
  rw [decide_eq_true (List.mem_range.mp hlane), Bool.true_and]

end BitMask

/-- A group load flags the occupied lanes of the group. -/
def LoadsOccupied (group : GroupBackend) (load : (Nat → UInt8) → Nat → BitMask) : Prop :=
  ∀ ctrl start, (load ctrl start).Flags group fun lane => isOccupied (ctrl (start + lane))

namespace OccupiedWords

variable {load : (Nat → UInt8) → Nat → BitMask}

/-- The same scanner, with a list for the lanes that are left in its mask. -/
structure Shows (group : GroupBackend) (c : OccupiedWords) (c' : OccupiedIndices) : Prop where
  slot : c.currentGroupSlot = c'.currentGroupSlot
  mask : c.currentMask.Reads group c'.currentMask

theorem shows_new : Shows group (.new group) (.new group) := ⟨rfl, reads_zero group⟩

theorem reads_occupiedWord (hload : LoadsOccupied group load) (r : Region E) (start : Nat) :
    (occupiedWord group load padded r start).Reads group (OccupiedIndices.occupiedMask group padded r start) := by
  have hgroup := (hload r.ctrl start).reads
  rw [occupiedWord, OccupiedIndices.occupiedMask]
  cases padded with
  | true => exact hgroup
  | false =>
    by_cases hfull : group.groupSize ≤ r.capacity - start
    · rw [Bool.false_or, if_pos (decide_eq_true hfull), if_neg Bool.false_ne_true, Nat.min_eq_left hfull]
      exact hgroup
    · have hpart := Nat.le_of_not_le hfull
      rw [Bool.false_or, if_neg (by simpa using hfull), if_neg Bool.false_ne_true, Nat.min_eq_right hpart]
      exact ⟨_, _, _, pattern_zero group, marks_tailMask r.ctrl start hpart, lanes_below _ hpart⟩

theorem stepFuel_shows (hload : LoadsOccupied group load) (r : Region E) {fuel : Nat} {c : OccupiedWords}
    {c' : OccupiedIndices} (h : Shows group c c') :
    (stepFuel group load padded r fuel c).1 = (OccupiedIndices.stepFuel group padded r fuel c').1 ∧
      Shows group (stepFuel group load padded r fuel c).2 (OccupiedIndices.stepFuel group padded r fuel c').2 := by
  induction fuel generalizing c c' with
  | zero => exact ⟨rfl, h⟩
  | succ fuel ih =>
    obtain ⟨slot, mask⟩ := c'
    obtain ⟨hslot, hmask⟩ := h
    obtain ⟨hbit, hrest⟩ := hmask.next
    rcases hnext : c.currentMask.next group with ⟨bit, word⟩
    rw [hnext] at hbit hrest
    rw [stepFuel, OccupiedIndices.stepFuel, hnext]
    dsimp only at hslot hmask hbit hrest ⊢
    cases mask with
    | cons lane rest =>
      obtain rfl : bit = some lane := hbit
      exact ⟨congrArg (fun slot => some (slot + lane)) hslot, hslot, hrest⟩
    | nil =>
      obtain rfl : bit = none := hbit
      dsimp only
      rw [hslot]
      split
      · exact ⟨rfl, hslot, hmask⟩
      · exact ih ⟨rfl, reads_occupiedWord hload r _⟩

theorem step_shows (hload : LoadsOccupied group load) (r : Region E) (c : OccupiedWords) (c' : OccupiedIndices)
    (h : Shows group c c') : (step group load padded r c).1 = (OccupiedIndices.step group padded r c').1 ∧
      Shows group (step group load padded r c).2 (OccupiedIndices.step group padded r c').2 :=
  stepFuel_shows hload r h

/-- Scanning words and scanning lists yield the same slots, whatever becomes of the region between the calls. -/
theorem yieldAt_eq (hload : LoadsOccupied group load) (rs : Nat → Region E) (k : Nat) :
    yieldAt (step group load padded) (.new group) rs k = yieldAt (OccupiedIndices.step group padded) (.new group) rs k :=
  yieldAt_simulated (step_shows hload) shows_new k

end OccupiedWords

namespace Swar

def occupiedMaskGroup (ctrl : Nat → UInt8) (start : Nat) : BitMask := ⟨occupiedMask (loadWord ctrl start)⟩

theorem loadsOccupied_portable : LoadsOccupied .scalar occupiedMaskGroup := by
  intro ctrl start
  apply flags_of_bits
  have hexact : Exact (occupiedMask (loadWord ctrl start)) fun i => isOccupied (ctrl (start + i)) :=
    (exact_of_lanes fun i hi => lane_occupiedMask hi).congr fun i hi => congrArg isOccupied (byte_loadWord ctrl start hi)
  exact hexact.bits

theorem yieldAt_portable (padded : Bool) (rs : Nat → Region E) (k : Nat) :
    yieldAt (OccupiedWords.step .scalar occupiedMaskGroup padded) (.new .scalar) rs k =
      yieldAt (OccupiedIndices.step .scalar padded) (.new .scalar) rs k :=
  OccupiedWords.yieldAt_eq loadsOccupied_portable rs k

end Swar

end Opthash
