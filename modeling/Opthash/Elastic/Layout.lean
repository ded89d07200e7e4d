import Opthash.Calls
import Opthash.Elastic.Ops
import Opthash.Elastic.Positions
import Opthash.Raw.Contents

namespace Opthash.Elastic

open Exec Probe Opthash.Geometry

namespace ElasticGeometry

/-- What the code relies on in a geometry for `n` slots. -/
structure Laid (g : ElasticGeometry) (n : Nat) (r : ReserveFraction) : Prop where
  totalSlots : g.totalSlots = n
  levels : g.levelCapacities.length ≤ 32
  sum : g.levelCapacities.sum = n
  maxInsertions : g.maxInsertions = Capacity.maxInsertions n r

theorem forSlots_spec (n : Nat) (r : ReserveFraction) :
    forSlots n r = .ok none ∨ ∃ g, forSlots n r = .ok (some g) ∧ g.Laid n r := by
  unfold forSlots
  split
  · exact .inl rfl
  · rename_i hsmall
    refine .inr ?_
    split
    · rename_i h0
      subst h0
      refine ⟨_, rfl, rfl, by decide, rfl, ?_⟩
      exact (Nat.zero_sub _).symm
    · split
      · rename_i h1
        subst h1
        refine ⟨_, rfl, rfl, by decide, rfl, ?_⟩
        have hzero : floorDivPow2 1 r.exponent = 0 := Nat.lt_one_iff.mp (floorDivPow2_lt Nat.one_pos r.positive)
        rw [Capacity.maxInsertions, ReserveFraction.floorReserved, hzero]
      · have hconfig : PaperConfig.new n r.exponent = .ok ⟨n, r.exponent⟩ := by
          have := r.positive
          unfold PaperConfig.new
          rw [if_neg (by omega), if_neg (by omega)]
        rw [hconfig]
        dsimp only
        have hcount : ceilLog2 n ≤ 32 := ceilLog2_le (Nat.le_of_not_lt hsmall)
        have hlevels : (PaperConfig.levelLengths ⟨n, r.exponent⟩).length ≤ maxLevels := by
          rw [PaperConfig.levelLengths, levelLengthsFrom_length]
          exact hcount
        have hquotas : (PaperConfig.batchQuotas ⟨n, r.exponent⟩).length ≤ maxLevels := by
          rw [PaperConfig.batchQuotas, batchQuotasFrom_length]
          exact hlevels
        rw [planBuffer, if_pos hlevels, ok_bind, planBuffer, if_pos hquotas, ok_bind]
        refine ⟨_, rfl, rfl, hlevels, ?_, rfl⟩
        apply levelLengths_sum
        exact (by omega : 2 ≤ n)

theorem laid_of_forSlots {n : Nat} {r : ReserveFraction} {g : ElasticGeometry} (h : forSlots n r = .ok (some g)) :
    g.Laid n r := by
  rcases forSlots_spec n r with hnone | ⟨g', hg', hlaid⟩
  · rw [h] at hnone
    cases hnone
  · rw [h] at hg'
    cases hg'
    exact hlaid

end ElasticGeometry

theorem maxInsertions_double {n : Nat} (r : ReserveFraction) (hn : 2 ≤ n) :
    Capacity.maxInsertions n r < Capacity.maxInsertions (n * 2) r := by
  unfold Capacity.maxInsertions ReserveFraction.floorReserved floorDivPow2
  split
  · omega
  · obtain ⟨d, hd⟩ := Nat.exists_eq_succ_of_ne_zero (Nat.ne_of_gt r.positive)
    rw [hd, Nat.shiftRight_eq_div_pow, Nat.shiftRight_eq_div_pow, Nat.pow_succ, Nat.mul_div_mul_right _ _ Nat.two_pos,
      ← Nat.div_div_eq_div_mul]
    have := Nat.div_le_self n (2 ^ d)
    omega

namespace ElasticTable

variable {W K V : Type} {u : User W K V} {w : World W K V}

theorem reserveLevels_spec {caps : List Nat} {cursor : LayoutCursor} {levels : List (Level K V)}
    (h : reserveLevels caps cursor = .ok levels) :
    levels = caps.map Level.newAt ∧ ∀ cap ∈ caps, cap ≤ u32Max := by
  induction caps generalizing cursor levels with
  | nil =>
    cases h
    exact ⟨rfl, fun _ h => by cases h⟩
  | cons cap caps ih =>
    obtain ⟨_, hcap, h⟩ := bind_ok h
    obtain ⟨cursor', -, h⟩ := bind_ok h
    obtain ⟨rest, hrest, h⟩ := bind_ok h
    cases h
    obtain ⟨rfl, hall⟩ := ih hrest
    refine ⟨rfl, List.forall_mem_cons.mpr ⟨?_, hall⟩⟩
    unfold LayoutCursor.checkedU32 at hcap
    split at hcap
    · assumption
    · cases hcap

theorem buildElasticLevels_spec {slotSize dataBaseOff : Nat} {caps : List Nat} {levels : List (Level K V)}
    (h : buildElasticLevels slotSize dataBaseOff caps = .ok levels) :
    levels = caps.map Level.newAt ∧ ∀ cap ∈ caps, cap ≤ u32Max := by
  obtain ⟨cursor, -, h⟩ := bind_ok h
  exact reserveLevels_spec h

theorem totalCtrl_spec {caps : List Nat} {start total : Nat}
    (h : caps.foldlM (fun total capacity => checkedUsize (total + capacity)) start = some total) :
    total = start + caps.sum := by
  induction caps generalizing start with
  | nil =>
    cases h
    rfl
  | cons cap caps ih =>
    rw [List.foldlM_cons] at h
    obtain ⟨next, hnext, h⟩ := Option.bind_eq_some_iff.mp h
    obtain ⟨rfl, -⟩ := checkedUsize_spec hnext
    rw [ih h, List.sum_cons, Nat.add_assoc]

theorem wp_tryProbeSchedule {levelCount : Nat} {R : Panic → World W K V → Prop} :
    wp (tryProbeSchedule u levelCount) (fun _ w' => w'.ledger = w.ledger) R w := by
  rw [tryProbeSchedule, wp_bind]
  exact (rfl : (u.alloc _ w).2.ledger = w.ledger)

theorem wp_allocOr {α : Type} {layout : Layout} {f : Bool → Exec Panic (World W K V) α} {Q : α → World W K V → Prop}
    {R : Panic → World W K V → Prop} (h : ∀ allocated w', w'.ledger = w.ledger → wp (f allocated) Q R w') :
    wp (if layout.size = 0 then pure true >>= f else u.alloc layout >>= f) Q R w := by
  rw [wp_ite, wp_bind, wp_bind]
  exact ⟨fun _ => h true w rfl, fun _ => h _ _ rfl⟩

theorem wp_tryAllocElasticArena {caps : List Nat} {R : Panic → World W K V → Prop} :
    wp (tryAllocElasticArena u caps)
      (fun r w' => w'.ledger = w.ledger ∧ ∀ levels membership, r = .ok (levels, membership) →
        levels = caps.map Level.newAt ∧ membership = .zeroed (Membership.wordCount caps.sum) ∧
        ∀ cap ∈ caps, cap ≤ u32Max) R w := by
  unfold tryAllocElasticArena
  split
  · exact ⟨rfl, fun _ _ h => by cases h⟩
  · rename_i total htotal
    have hsum := totalCtrl_spec htotal
    rw [Nat.zero_add] at hsum
    subst hsum
    split
    · exact ⟨rfl, fun _ _ h => by cases h⟩
    · rename_i layout off words hlayout
      have hwords : words = Membership.wordCount caps.sum := by
        obtain ⟨⟨base, off'⟩, -, hlayout⟩ := bind_ok hlayout
        obtain ⟨⟨layout', words'⟩, hext, hlayout⟩ := bind_ok hlayout
        cases hlayout
        exact Arena.extendMembership_words hext
      apply wp_allocOr
      intro allocated w' hw'
      rw [wp_ite]
      refine ⟨fun _ => ?_, fun _ => ⟨hw', fun _ _ h => by cases h⟩⟩
      split
      · exact ⟨hw', fun _ _ h => by cases h⟩
      · rename_i levels hbuild
        obtain ⟨rfl, hall⟩ := buildElasticLevels_spec hbuild
        refine ⟨hw', fun _ _ h => ?_⟩
        cases h
        exact ⟨rfl, congrArg _ hwords, hall⟩

end ElasticTable

section Mask

variable {level : Nat}

def summaryBit (level : Nat) : UInt16 := (1 : UInt16) <<< UInt16.ofNat (summaryLevel level)

theorem summaryBit_ne_zero (level : Nat) : summaryBit level ≠ 0 := by
  have hall : ∀ level ≤ 15, (1 : UInt16) <<< UInt16.ofNat level ≠ 0 := by decide
  apply hall
  unfold summaryLevel routeSummaryLevels
  split <;> omega

theorem or_and_ne_zero₃₂ {x y z : UInt32} (h : x &&& z ≠ 0 ∨ y &&& z ≠ 0) : (x ||| y) &&& z ≠ 0 := by
  have hdistrib : (x ||| y) &&& z = x &&& z ||| y &&& z := by
    rw [← UInt32.toBitVec_inj]
    simp only [UInt32.toBitVec_and, UInt32.toBitVec_or]
    ext i hi
    simp only [BitVec.getElem_and, BitVec.getElem_or]
    grind
  rw [hdistrib, ne_eq, UInt32.or_eq_zero_iff]
  tauto

theorem expandedLevelMask_and (hl : level < 32) {bits : UInt16} {present : Bool}
    (h : bits &&& summaryBit level ≠ 0) :
    (ElasticRouteFilter.mk present bits.toUInt32).expandedLevelMask &&& ((1 : UInt32) <<< UInt32.ofNat level) ≠ 0 := by
  have hwiden : bits.toUInt32 &&& (summaryBit level).toUInt32 ≠ 0 := by
    rw [← UInt16.toUInt32_and]
    intro h0
    apply h
    apply UInt16.toNat_inj.mp
    have := congrArg UInt32.toNat h0
    rwa [UInt16.toNat_toUInt32] at this
  unfold ElasticRouteFilter.expandedLevelMask
  dsimp only
  apply or_and_ne_zero₃₂
  by_cases hlow : level < 15
  · left
    have hbit : ∀ level < 15, (summaryBit level).toUInt32 = (1 : UInt32) <<< UInt32.ofNat level := by decide
    rwa [← hbit level hlow]
  · right
    have hbit : (summaryBit level).toUInt32 = 0x8000 := by
      have hall : ∀ level < 32, 15 ≤ level → (summaryBit level).toUInt32 = 0x8000 := by decide
      exact hall level hl (Nat.le_of_not_lt hlow)
    rw [hbit] at hwiden
    have hset : (bits.toUInt32 >>> 15) &&& 1 = 1 := by
      have htest : bits.toUInt32.toNat.testBit 15 = true := by
        by_contra hfalse
        apply hwiden
        apply UInt32.toNat_inj.mp
        apply Nat.eq_of_testBit_eq
        intro i
        have hbits : (0x8000 : UInt32).toNat = 2 ^ 15 := rfl
        have hzero : (0 : UInt32).toNat = 0 := rfl
        rw [UInt32.toNat_and, hbits, hzero, Nat.testBit_and, Nat.testBit_two_pow, Nat.zero_testBit]
        by_cases hi : 15 = i
        · rw [← hi, Bool.eq_false_iff.mpr hfalse, Bool.false_and]
        · rw [decide_eq_false hi, Bool.and_false]
      have hshift : (15 : UInt32).toNat % 32 = 15 := rfl
      have hone : (1 : UInt32).toNat = 1 := rfl
      rw [Nat.testBit_eq_decide_div_mod_eq] at htest
      apply UInt32.toNat_inj.mp
      rw [UInt32.toNat_and, UInt32.toNat_shiftRight, hshift, hone, Nat.and_one_is_mod, Nat.shiftRight_eq_div_pow]
      exact of_decide_eq_true htest
    rw [hset]
    have hall : ∀ level < 32, 15 ≤ level → ((0 - 1 : UInt32) <<< 15) &&& ((1 : UInt32) <<< UInt32.ofNat level) ≠ 0 := by
      decide
    exact hall level hl (Nat.le_of_not_lt hlow)

end Mask

end Opthash.Elastic
