import Opthash.Control
import Opthash.Lib.Cursors
import Opthash.Lib.Lanes

namespace Opthash

open Cursors Lanes

def bitmaskStride : GroupBackend → Nat
  | .scalar => 8
  | .neon => 8
  | .sse2 => 1

def trailingZeros (word : UInt64) : Nat := word.toBitVec.ctz.toNat

structure BitMask where
  word : UInt64
  deriving DecidableEq

namespace BitMask

variable (group : GroupBackend) (m : BitMask)

def firstBelow (limit : Nat) : Option Nat :=
  if m.word = 0 then none
  else
    let slot := trailingZeros m.word / bitmaskStride group
    if slot < limit then some slot else none

/-- Yields the lowest set slot and clears it: its byte on NEON, its bit elsewhere. -/
def next : Option Nat × BitMask :=
  if m.word = 0 then (none, m)
  else
    let bit := trailingZeros m.word
    let cleared := match group with
      | .neon => m.word &&& ~~~(0xFF <<< UInt64.ofNat bit)
      | _ => m.word &&& (m.word - 1)
    (some (bit / bitmaskStride group), ⟨cleared⟩)

end BitMask

namespace Swar

def LO7 : UInt64 := 0x7f7f7f7f7f7f7f7f
def HI : UInt64 := 0x8080808080808080
def ONES : UInt64 := 0x0101010101010101

def byte (word : UInt64) (i : Nat) : UInt8 := UInt8.ofNat (lane 8 word.toNat i)

def loadWord (ctrl : Nat → UInt8) (start : Nat) : UInt64 :=
  UInt64.ofNat (ofLanes 8 ((List.range 8).map fun i => (ctrl (start + i)).toNat))

def eqMask (word : UInt64) (target : UInt8) : UInt64 :=
  let cmp := word ^^^ target.toUInt64 * ONES
  let ne := (((cmp &&& LO7) + LO7) ||| cmp) &&& HI
  ne ^^^ HI

def occupiedMask (word : UInt64) : UInt64 := ((word &&& LO7) + LO7) &&& HI

def freeMask (word : UInt64) : UInt64 := occupiedMask word ^^^ HI

end Swar

section Scan

variable {word : UInt64}

theorem trailingZeros_lt (h : word ≠ 0) : trailingZeros word < 64 := by
  have hne : word.toBitVec ≠ 0#64 := fun hzero => h (UInt64.toBitVec_inj.mp hzero)
  exact BitVec.ctz_lt_iff_ne_zero.mpr hne

theorem testBit_trailingZeros (h : word ≠ 0) : word.toNat.testBit (trailingZeros word) = true := by
  have hne : word.toBitVec ≠ 0#64 := fun hzero => h (UInt64.toBitVec_inj.mp hzero)
  exact BitVec.getLsbD_true_ctz_of_ne_zero hne

theorem testBit_below_trailingZeros {j : Nat} (hj : j < trailingZeros word) : word.toNat.testBit j = false :=
  BitVec.getLsbD_false_of_lt_ctz hj

theorem eq_zero_of_testBit (h : ∀ j < 64, word.toNat.testBit j = false) : word = 0 := by
  by_contra hne
  have hbit := testBit_trailingZeros hne
  rw [h _ (trailingZeros_lt hne)] at hbit
  cases hbit

theorem testBit_clearBit (h : word ≠ 0) (j : Nat) :
    (word &&& (word - 1)).toNat.testBit j = (word.toNat.testBit j && decide (j ≠ trailingZeros word)) := by
  have hpos : (1 : UInt64) ≤ word := by
    rw [UInt64.le_iff_toNat_le]
    exact Nat.pos_of_ne_zero fun hzero => h (UInt64.toNat_inj.mp hzero)
  have hbit := testBit_trailingZeros h
  have hbelow : ∀ i < trailingZeros word, word.toNat.testBit i = false := fun i => testBit_below_trailingZeros
  rw [UInt64.toNat_and, UInt64.toNat_sub_of_le _ _ hpos, Nat.testBit_and]
  change (word.toNat.testBit j && (word.toNat - 1).testBit j) = _
  generalize trailingZeros word = t at hbit hbelow
  generalize word.toNat = x at hbit hbelow
  -- `x` is `2 ^ t` below bit `t + 1`, which the subtraction turns into the ones below `t`.
  have hlow : x % 2 ^ (t + 1) = 2 ^ t := by
    apply Nat.eq_of_testBit_eq
    intro i
    rw [Nat.testBit_mod_two_pow, Nat.testBit_two_pow]
    rcases Nat.lt_trichotomy i t with hlt | rfl | hgt
    · rw [hbelow i hlt, Bool.and_false, decide_eq_false (Nat.ne_of_gt hlt)]
    · rw [hbit, decide_eq_true (Nat.lt_succ_self i), decide_eq_true rfl]
      rfl
    · rw [decide_eq_false (by omega), decide_eq_false (Nat.ne_of_lt hgt), Bool.false_and]
  have hpow := Nat.two_pow_pos t
  have hpred : x - 1 = 2 ^ (t + 1) * (x / 2 ^ (t + 1)) + (2 ^ t - 1) := by
    have := Nat.div_add_mod x (2 ^ (t + 1))
    omega
  have hsmall : 2 ^ t - 1 < 2 ^ (t + 1) := by
    rw [Nat.pow_succ]
    omega
  rw [hpred, Nat.testBit_two_pow_mul_add _ hsmall, Nat.testBit_two_pow_sub_one]
  rcases Nat.lt_trichotomy j t with hlt | rfl | hgt
  · rw [hbelow j hlt, Bool.false_and, Bool.false_and]
  · simp
  · rw [if_neg (by omega), decide_eq_true (Nat.ne_of_gt hgt), Bool.and_true, Nat.testBit_div_two_pow, Nat.sub_add_cancel hgt,
      Bool.and_self]

theorem testBit_clearByte (h : word ≠ 0) {j : Nat} (hj : j < 64) :
    (word &&& ~~~(0xFF <<< UInt64.ofNat (trailingZeros word))).toNat.testBit j =
      (word.toNat.testBit j && !decide (trailingZeros word ≤ j ∧ j < trailingZeros word + 8)) := by
  have ht := trailingZeros_lt h
  generalize trailingZeros word = t at ht
  rw [UInt64.toNat_and, Nat.testBit_and]
  congr 1
  change (~~~(0xFF <<< UInt64.ofNat t) : UInt64).toBitVec.getLsbD j = _
  rw [UInt64.toBitVec_not, BitVec.getLsbD_not, decide_eq_true hj, Bool.true_and]
  congr 1
  change (0xFF <<< UInt64.ofNat t : UInt64).toNat.testBit j = _
  have hshift : (UInt64.ofNat t).toNat % 64 = t := by
    rw [UInt64.toNat_ofNat']
    omega
  rw [UInt64.toNat_shiftLeft, hshift, Nat.testBit_mod_two_pow, decide_eq_true hj, Bool.true_and, Nat.testBit_shiftLeft]
  change (decide (j ≥ t) && (2 ^ 8 - 1).testBit (j - t)) = _
  rw [Nat.testBit_two_pow_sub_one]
  rcases Nat.lt_or_ge j t with hlt | hge
  · rw [decide_eq_false (Nat.not_le_of_lt hlt), Bool.false_and, decide_eq_false (by omega)]
  · rw [decide_eq_true hge, Bool.true_and]
    congr 1
    apply propext
    omega
end Scan

namespace BitMask

variable {group : GroupBackend} {m : BitMask} {bits : Nat → Bool} {first : Nat} {p : Nat → Bool}

def Marks (group : GroupBackend) (bits : Nat → Bool) (m : BitMask) (p : Nat → Bool) : Prop :=
  ∀ j < 64, m.word.toNat.testBit j =
    (decide (j / bitmaskStride group < group.groupSize) && p (j / bitmaskStride group) && bits (j % bitmaskStride group))

/-- The bits of a lane that a group's comparison sets: its byte on NEON, the high bit of the byte or the only bit
elsewhere. -/
def flagBit (group : GroupBackend) (bit : Nat) : Bool :=
  match group with
  | .scalar => bit == 7
  | .neon => true
  | .sse2 => true

def Flags (group : GroupBackend) (m : BitMask) (p : Nat → Bool) : Prop := m.Marks group (flagBit group) p

/-- Bits of a lane that `next` clears together: all from the lowest on, on NEON; a single bit elsewhere. -/
structure Pattern (group : GroupBackend) (bits : Nat → Bool) (first : Nat) : Prop where
  lt : first < bitmaskStride group
  set : bits first = true
  least : ∀ bit < bitmaskStride group, bits bit = true → first ≤ bit
  lowest : group = .neon → first = 0
  single : group ≠ .neon → ∀ bit < bitmaskStride group, bits bit = true → bit = first

theorem Pattern.of_single {bits : Nat → Bool} (hlt : first < bitmaskStride group) (hset : bits first = true)
    (hlowest : group = .neon → first = 0) (hsingle : ∀ bit < bitmaskStride group, bits bit = true → bit = first) :
    Pattern group bits first :=
  ⟨hlt, hset, fun bit hbit h => Nat.le_of_eq (hsingle bit hbit h).symm, hlowest, fun _ => hsingle⟩

def firstFlag : GroupBackend → Nat
  | .scalar => 7
  | .neon => 0
  | .sse2 => 0

theorem pattern_flagBit (group : GroupBackend) : Pattern group (flagBit group) (firstFlag group) := by
  cases group with
  | scalar => exact .of_single (by decide) rfl (fun h => by cases h) fun _ _ h => beq_iff_eq.mp h
  | neon => exact ⟨by decide, rfl, fun _ _ _ => Nat.zero_le _, fun _ => rfl, fun h => absurd rfl h⟩
  | sse2 => exact .of_single (by decide) rfl (fun h => by cases h) fun _ hbit _ => Nat.lt_one_iff.mp hbit

def lanes (group : GroupBackend) (p : Nat → Bool) : List Nat := (List.range group.groupSize).filter p

theorem lanes_eq_nil (h : lanes group p = []) {lane : Nat} (hlane : lane < group.groupSize) : p lane = false := by
  rw [lanes, List.filter_eq_nil_iff] at h
  exact Bool.eq_false_iff.mpr (h lane (List.mem_range.mpr hlane))

theorem lanes_eq_cons {i : Nat} {rest : List Nat} (h : lanes group p = i :: rest) :
    i < group.groupSize ∧ p i = true ∧ (∀ lane, lane < i → p lane = false) ∧ (∀ lane ∈ rest, i < lane) ∧
      lanes group (fun lane => p lane && decide (lane ≠ i)) = rest := by
  have hsorted : (i :: rest).Pairwise (· < ·) := h ▸ List.pairwise_lt_range.filter p
  have hrest : ∀ {lane}, lane ∈ rest → i < lane := List.rel_of_pairwise_cons hsorted
  have hi : i ∈ lanes group p := h ▸ List.mem_cons_self
  obtain ⟨hsize, hp⟩ := List.mem_filter.mp hi
  refine ⟨List.mem_range.mp hsize, hp, fun lane hlane => ?_, fun lane => hrest, ?_⟩
  · by_contra hflag
    have hmem : lane ∈ i :: rest :=
      h ▸ List.mem_filter.mpr ⟨List.mem_range.mpr (hlane.trans (List.mem_range.mp hsize)), by simpa using hflag⟩
    rcases List.mem_cons.mp hmem with rfl | hmem
    · exact Nat.lt_irrefl _ hlane
    · exact Nat.lt_asymm hlane (hrest hmem)
  · have hboth : lanes group (fun lane => p lane && decide (lane ≠ i)) =
        (lanes group p).filter fun lane => decide (lane ≠ i) := by
      rw [lanes, lanes, List.filter_filter]
      congr 1
      funext lane
      exact Bool.and_comm ..
    rw [hboth, h, List.filter_cons_of_neg (by simp), List.filter_eq_self]
    intro lane hlane
    exact decide_eq_true (Nat.ne_of_gt (hrest hlane))

theorem Marks.word_eq_zero (h : m.Marks group bits p) (hnil : lanes group p = []) : m.word = 0 := by
  refine eq_zero_of_testBit fun j hj => ?_
  rw [h j hj]
  by_cases hlane : j / bitmaskStride group < group.groupSize
  · rw [lanes_eq_nil hnil hlane, Bool.and_false, Bool.false_and]
  · rw [decide_eq_false hlane, Bool.false_and, Bool.false_and]

theorem bitmaskStride_pos (group : GroupBackend) : 0 < bitmaskStride group := by
  cases group <;> decide

theorem bitmaskStride_mul_groupSize (group : GroupBackend) : bitmaskStride group * group.groupSize ≤ 64 := by
  cases group <;> decide

def firstBit (group : GroupBackend) (first lane : Nat) : Nat := bitmaskStride group * lane + first

theorem firstBit_mono {i lane : Nat} (h : i ≤ lane) : firstBit group first i ≤ firstBit group first lane :=
  Nat.add_le_add_right (Nat.mul_le_mul_left _ h) _

section Pattern

variable (hb : Pattern group bits first)
include hb

theorem firstBit_div (lane : Nat) : firstBit group first lane / bitmaskStride group = lane := by
  rw [firstBit, Nat.mul_add_div (bitmaskStride_pos group), Nat.div_eq_of_lt hb.lt, Nat.add_zero]

theorem firstBit_mod (lane : Nat) : firstBit group first lane % bitmaskStride group = first := by
  rw [firstBit, Nat.mul_add_mod, Nat.mod_eq_of_lt hb.lt]

theorem firstBit_lt {lane : Nat} (hlane : lane < group.groupSize) : firstBit group first lane < 64 := by
  have hnext : bitmaskStride group * (lane + 1) ≤ bitmaskStride group * group.groupSize := Nat.mul_le_mul_left _ hlane
  have := bitmaskStride_mul_groupSize group
  have := hb.lt
  rw [Nat.mul_succ] at hnext
  unfold firstBit
  omega

theorem firstBit_le {j : Nat} (h : bits (j % bitmaskStride group) = true) :
    firstBit group first (j / bitmaskStride group) ≤ j := by
  have hleast := hb.least _ (Nat.mod_lt j (bitmaskStride_pos group)) h
  have := Nat.div_add_mod j (bitmaskStride group)
  unfold firstBit
  omega

theorem Marks.testBit_firstBit (h : m.Marks group bits p) {lane : Nat} (hlane : lane < group.groupSize) :
    m.word.toNat.testBit (firstBit group first lane) = p lane := by
  rw [h _ (firstBit_lt hb hlane), firstBit_div hb, firstBit_mod hb, hb.set, decide_eq_true hlane, Bool.true_and,
    Bool.and_true]

section Least

variable {i : Nat} {rest : List Nat} (h : m.Marks group bits p) (hcons : lanes group p = i :: rest)
include h hcons

theorem Marks.word_ne_zero : m.word ≠ 0 := by
  obtain ⟨hsize, hp, -⟩ := lanes_eq_cons hcons
  intro hzero
  have hbit := h.testBit_firstBit hb hsize
  rw [hzero, hp] at hbit
  exact absurd hbit (by simp)

theorem Marks.trailingZeros_eq : trailingZeros m.word = firstBit group first i := by
  obtain ⟨hsize, hp, hleast, -⟩ := lanes_eq_cons hcons
  have hne := h.word_ne_zero hb hcons
  apply Nat.le_antisymm
  · by_contra hlt
    have hbit := h.testBit_firstBit hb hsize
    rw [testBit_below_trailingZeros (Nat.lt_of_not_le hlt), hp] at hbit
    cases hbit
  · have hbit := testBit_trailingZeros hne
    rw [h _ (trailingZeros_lt hne), Bool.and_eq_true, Bool.and_eq_true] at hbit
    obtain ⟨⟨-, hlane⟩, hset⟩ := hbit
    have hle : i ≤ trailingZeros m.word / bitmaskStride group := by
      by_contra hlt
      rw [hleast _ (Nat.lt_of_not_le hlt)] at hlane
      cases hlane
    exact (firstBit_mono hle).trans (firstBit_le hb hset)

theorem Marks.next_cons : (m.next group).1 = some i ∧
    (m.next group).2.Marks group bits fun lane => p lane && decide (lane ≠ i) := by
  have hne := h.word_ne_zero hb hcons
  have hbit := h.trailingZeros_eq hb hcons
  rw [next, if_neg hne]
  dsimp only
  refine ⟨by rw [hbit, firstBit_div hb], fun j hj => ?_⟩
  have hcleared : ∀ word' : UInt64,
      word'.toNat.testBit j = (m.word.toNat.testBit j && decide (j / bitmaskStride group ≠ i)) →
      word'.toNat.testBit j = (decide (j / bitmaskStride group < group.groupSize) &&
        (p (j / bitmaskStride group) && decide (j / bitmaskStride group ≠ i)) &&
          bits (j % bitmaskStride group)) := by
    intro word' hword
    rw [hword, h j hj, Bool.and_right_comm, Bool.and_assoc (decide _)]
  apply hcleared
  -- Off NEON the lowest set bit is all there is of its lane.
  have hlowest : group ≠ .neon → (m.word &&& (m.word - 1)).toNat.testBit j =
      (m.word.toNat.testBit j && decide (j / bitmaskStride group ≠ i)) := by
    intro hgroup
    rw [testBit_clearBit hne, hbit]
    cases hset : m.word.toNat.testBit j with
    | false => rw [Bool.false_and, Bool.false_and]
    | true =>
      rw [h j hj, Bool.and_eq_true] at hset
      have hmod := hb.single hgroup _ (Nat.mod_lt j (bitmaskStride_pos group)) hset.2
      have hdiv := Nat.div_add_mod j (bitmaskStride group)
      rw [hmod] at hdiv
      have hsame : j = firstBit group first i ↔ j / bitmaskStride group = i := by
        constructor
        · rintro rfl
          exact firstBit_div hb i
        · rintro rfl
          exact hdiv.symm
      rw [decide_eq_decide.mpr (not_congr hsame)]
  cases group with
  | scalar => exact hlowest fun hneon => by cases hneon
  | neon =>
    rw [testBit_clearByte hne hj, hbit, ← decide_not, hb.lowest rfl]
    congr 1
    apply decide_eq_decide.mpr
    change ¬(8 * i + 0 ≤ j ∧ j < 8 * i + 0 + 8) ↔ j / 8 ≠ i
    omega
  | sse2 => exact hlowest fun hneon => by cases hneon

end Least

end Pattern

theorem Marks.next_nil (h : m.Marks group bits p) (hnil : lanes group p = []) : m.next group = (none, m) := by
  rw [next, if_pos (h.word_eq_zero hnil)]

def lanesCursor (group : GroupBackend) (_ : Unit) (m : BitMask) : Option Nat × BitMask := m.next group

theorem ordered_lanesCursor (hb : Pattern group bits first) : Ordered (lanesCursor group) (fun _ _ => True)
    (fun _ _ _ => True) (fun _ _ => True) (fun _ m ls => ∃ p, m.Marks group bits p ∧ lanes group p = ls) where
  yields := by
    rintro ⟨⟩ m ls ⟨p, h, rfl⟩
    cases hlanes : lanes group p with
    | nil => exact congrArg Prod.fst (h.next_nil hlanes)
    | cons i rest => exact (h.next_cons hb hlanes).1
  passes := fun _ _ => trivial
  advances := by
    rintro ⟨⟩ m ls - ⟨p, h, rfl⟩ - -
    cases hlanes : lanes group p with
    | nil => exact ⟨p, (congrArg Prod.snd (h.next_nil hlanes)) ▸ h, hlanes⟩
    | cons i rest => exact ⟨_, (h.next_cons hb hlanes).2, (lanes_eq_cons hlanes).2.2.2.2⟩

theorem Flags.yieldAt_eq (h : m.Flags group p) (k : Nat) :
    yieldAt (lanesCursor group) m (fun _ => ()) k = (lanes group p)[k]? :=
  (ordered_lanesCursor (pattern_flagBit group)).yieldAt_eq ⟨p, h, rfl⟩ (fun _ => trivial) (fun _ _ _ => trivial) k

theorem Flags.firstBelow_eq (h : m.Flags group p) (limit : Nat) :
    m.firstBelow group limit = (lanes group p).find? (· < limit) := by
  have hb := pattern_flagBit group
  rw [firstBelow]
  cases hlanes : lanes group p with
  | nil => rw [if_pos (Marks.word_eq_zero h hlanes), List.find?_nil]
  | cons i rest =>
    obtain ⟨-, -, -, hrest, -⟩ := lanes_eq_cons hlanes
    rw [if_neg (Marks.word_ne_zero hb h hlanes), Marks.trailingZeros_eq hb h hlanes]
    dsimp only
    rw [firstBit_div hb, List.find?_cons]
    by_cases hlimit : i < limit
    · rw [if_pos hlimit, decide_eq_true hlimit]
    · have hnone : rest.find? (· < limit) = none := by
        rw [List.find?_eq_none]
        intro lane hlane
        have := hrest lane hlane
        simp
        omega
      rw [if_neg hlimit, decide_eq_false hlimit, hnone]

end BitMask

namespace Swar

variable {word : UInt64} {target : UInt8} {i : Nat}

theorem lane_LO7 : ∀ i < 8, lane 8 LO7.toNat i = 127 := by decide

theorem lane_HI : ∀ i < 8, lane 8 HI.toNat i = 128 := by decide

/-- Seven bits and `0x7f` sum to less than a byte, so the word addition is one of lanes. -/
theorem sum_fits (a : UInt64) : ∀ i < 8, lane 8 (a &&& LO7).toNat i + lane 8 LO7.toNat i < 2 ^ 8 := by
  intro i hi
  rw [UInt64.toNat_and, lane_and, lane_LO7 i hi]
  have := @Nat.and_le_right (lane 8 a.toNat i) 127
  omega

theorem lane_sum (a : UInt64) (hi : i < 8) : lane 8 ((a &&& LO7) + LO7).toNat i = (lane 8 a.toNat i &&& 127) + 127 := by
  have hlow := @low_add_lt 8 (a &&& LO7).toNat LO7.toNat 8 (sum_fits a)
  have hsum : ((a &&& LO7) + LO7).toNat = (a &&& LO7).toNat + LO7.toNat := by
    rw [UInt64.toNat_add]
    apply Nat.mod_eq_of_lt
    rwa [Nat.mod_eq_of_lt (UInt64.toNat_lt _), Nat.mod_eq_of_lt (UInt64.toNat_lt _)] at hlow
  rw [hsum, lane_add fun j hj => sum_fits a j (by omega), UInt64.toNat_and, lane_and, lane_LO7 i hi]

theorem lane_splat : ∀ t < 256, ∀ i < 8, lane 8 (UInt64.ofNat t * ONES).toNat i = t := by decide +kernel

theorem high_of_seven : ∀ b < 2 ^ 8, ((b &&& 127) + 127) &&& 128 = if b &&& 127 = 0 then 0 else 128 := by decide +kernel

theorem high_of_byte : ∀ b < 2 ^ 8, (((b &&& 127) + 127) ||| b) &&& 128 = if b = 0 then 0 else 128 := by decide +kernel

theorem isOccupied_ofNat : ∀ b < 2 ^ 8, isOccupied (UInt8.ofNat b) = decide (b &&& 127 ≠ 0) := by decide +kernel

theorem lane_occupiedMask (hi : i < 8) :
    lane 8 (occupiedMask word).toNat i = if isOccupied (byte word i) then 128 else 0 := by
  rw [occupiedMask, UInt64.toNat_and, lane_and, lane_sum word hi, lane_HI i hi, high_of_seven _ lane_lt, byte,
    isOccupied_ofNat _ lane_lt]
  by_cases hzero : lane 8 word.toNat i &&& 127 = 0
  · rw [if_pos hzero, decide_eq_false (not_not_intro hzero), if_neg Bool.false_ne_true]
  · rw [if_neg hzero, decide_eq_true hzero, if_pos rfl]

theorem lane_freeMask (hi : i < 8) : lane 8 (freeMask word).toNat i = if isFree (byte word i) then 128 else 0 := by
  rw [freeMask, UInt64.toNat_xor, lane_xor, lane_occupiedMask hi, lane_HI i hi, isFree_eq_not]
  cases isOccupied (byte word i) <;> rfl

theorem lane_eqMask (hi : i < 8) : lane 8 (eqMask word target).toNat i = if byte word i == target then 128 else 0 := by
  have htarget : target.toUInt64 = UInt64.ofNat target.toNat := (UInt64.ofNat_uInt8ToNat target).symm
  have hcmp : lane 8 (word ^^^ target.toUInt64 * ONES).toNat i = lane 8 word.toNat i ^^^ target.toNat := by
    rw [UInt64.toNat_xor, lane_xor, htarget, lane_splat _ target.toNat_lt i hi]
  rw [eqMask, UInt64.toNat_xor, lane_xor, lane_HI i hi, UInt64.toNat_and, lane_and, lane_HI i hi, UInt64.toNat_or, lane_or,
    lane_sum _ hi, high_of_byte _ lane_lt, hcmp]
  have hsame : (lane 8 word.toNat i ^^^ target.toNat = 0) ↔ byte word i = target := by
    rw [Nat.xor_eq_zero_iff, byte, ← UInt8.toNat_inj, UInt8.toNat_ofNat', Nat.mod_eq_of_lt lane_lt]
  by_cases heq : byte word i = target
  · rw [if_pos (hsame.mpr heq), if_pos (beq_iff_eq.mpr heq)]
    rfl
  · rw [if_neg fun h => heq (hsame.mp h), if_neg fun h => heq (beq_iff_eq.mp h)]
    rfl

/-- A mask as exact as a comparison of each byte by itself, and so are its iterator and its lowest lane. -/
structure Exact (mask : UInt64) (p : Nat → Bool) : Prop where
  bits : ∀ j < 64, mask.toNat.testBit j = (p (j / 8) && j % 8 == 7)
  yields : ∀ k, yieldAt (BitMask.lanesCursor .scalar) ⟨mask⟩ (fun _ => ()) k = ((List.range 8).filter p)[k]?
  firstBelow : ∀ limit, (⟨mask⟩ : BitMask).firstBelow .scalar limit = ((List.range 8).filter p).find? (· < limit)

theorem flags_of_bits {mask : UInt64} {p : Nat → Bool} (h : ∀ j < 64, mask.toNat.testBit j = (p (j / 8) && j % 8 == 7)) :
    (⟨mask⟩ : BitMask).Flags .scalar p := by
  intro j hj
  have hlane : decide (j / bitmaskStride .scalar < GroupBackend.groupSize .scalar) = true := decide_eq_true (by
    change j / 8 < 8
    omega)
  rw [hlane, Bool.true_and]
  exact h j hj

theorem exact_of_bits {mask : UInt64} {p : Nat → Bool} (h : ∀ j < 64, mask.toNat.testBit j = (p (j / 8) && j % 8 == 7)) :
    Exact mask p :=
  ⟨h, (flags_of_bits h).yieldAt_eq, (flags_of_bits h).firstBelow_eq⟩

theorem exact_of_lanes {mask : UInt64} {p : Nat → Bool} (h : ∀ i < 8, lane 8 mask.toNat i = if p i then 128 else 0) :
    Exact mask p := by
  apply exact_of_bits
  intro j hj
  have hhigh : ∀ bit < 8, (128 : Nat).testBit bit = (bit == 7) := by decide
  rw [testBit_eq_lane (by decide : 0 < 8), h (j / 8) (by omega)]
  cases p (j / 8) with
  | true => exact hhigh _ (Nat.mod_lt j (by decide))
  | false => exact Nat.zero_testBit _

/-- The masks of the portable backend flag the high bit of exactly the lanes whose byte they look for. -/
theorem masks_exact (word : UInt64) (target : UInt8) :
    Exact (eqMask word target) (fun i => byte word i == target) ∧
      Exact (occupiedMask word) (fun i => byte word i &&& 0x7F != 0) ∧
      Exact (freeMask word) (fun i => byte word i &&& 0x7F == 0) :=
  ⟨exact_of_lanes fun _ => lane_eqMask, exact_of_lanes fun _ => lane_occupiedMask, exact_of_lanes fun _ => lane_freeMask⟩

theorem byte_loadWord (ctrl : Nat → UInt8) (start : Nat) (hi : i < 8) : byte (loadWord ctrl start) i = ctrl (start + i) := by
  have hbytes : ∀ b ∈ (List.range 8).map fun i => (ctrl (start + i)).toNat, b < 2 ^ 8 := by
    intro b hb
    obtain ⟨i, -, rfl⟩ := List.mem_map.mp hb
    exact UInt8.toNat_lt _
  have hword := ofLanes_lt hbytes
  rw [List.length_map, List.length_range] at hword
  rw [byte, loadWord, UInt64.toNat_ofNat', Nat.mod_eq_of_lt hword, lane_ofLanes hbytes, List.getElem?_map,
    List.getElem?_range hi]
  exact UInt8.ofNat_toNat

theorem Exact.congr {mask : UInt64} {p q : Nat → Bool} (h : Exact mask p) (hpq : ∀ i < 8, p i = q i) : Exact mask q :=
  exact_of_bits fun j hj => by rw [h.bits j hj, hpq (j / 8) (by omega)]

theorem Exact.or {mask mask' : UInt64} {p q : Nat → Bool} (h : Exact mask p) (h' : Exact mask' q) :
    Exact (mask ||| mask') fun i => p i || q i :=
  exact_of_bits fun j hj => by
    rw [UInt64.toNat_or, Nat.testBit_or, h.bits j hj, h'.bits j hj, Bool.and_or_distrib_right]

end Swar

end Opthash
