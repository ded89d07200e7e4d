import Mathlib.Algebra.Order.Group.Abs
import Mathlib.Algebra.Order.Ring.Int
import Mathlib.Data.List.Chain
import Mathlib.Order.Monotone.Basic
import Mathlib.Tactic.Linarith
import Mathlib.Tactic.Ring
import Opthash.Exact.Geometry

namespace Opthash.Geometry

/-- What `levels` counts add up to when each is the successor of the one before. -/
def pathSum (next : Nat → Nat) : Nat → Nat → Nat
  | 0, _ => 0
  | levels + 1, count => count + pathSum next levels (next count)

section Paths

variable {next : Nat → Nat} {levels count target sum : Nat}

theorem pathSum_mono (hmono : Monotone next) (levels : Nat) : Monotone (pathSum next levels) := by
  induction levels with
  | zero => exact fun _ _ _ => Nat.le_refl _
  | succ levels ih => exact fun _ _ h => Nat.add_le_add h (ih (hmono h))

theorem le_pathSum (hpos : ∀ count, 0 < next count) (hcount : 0 < count) : levels ≤ pathSum next levels count := by
  induction levels generalizing count with
  | zero => exact Nat.zero_le _
  | succ levels ih =>
    have := ih (hpos count)
    rw [pathSum]
    omega

theorem count_le_pathSum (hlevels : 0 < levels) : count ≤ pathSum next levels count := by
  obtain ⟨levels, rfl⟩ := Nat.exists_eq_succ_of_ne_zero (Nat.ne_of_gt hlevels)
  exact Nat.le_add_right ..

theorem minimumNextBucketCount_eq (count : Nat) :
    minimumNextBucketCount count = max 1 (count - count / 4 - 1) := by
  unfold minimumNextBucketCount ceilThreeQuarters
  dsimp only
  split <;> omega

theorem maximumNextBucketCount_eq (count : Nat) :
    maximumNextBucketCount count = min count (count * 3 / 4 + 1) := by
  unfold maximumNextBucketCount
  dsimp only
  split <;> split <;> omega

theorem minimumNext_mono : Monotone minimumNextBucketCount := by
  intro a b h
  rw [minimumNextBucketCount_eq, minimumNextBucketCount_eq]
  omega

theorem maximumNext_mono : Monotone maximumNextBucketCount := by
  intro a b h
  rw [maximumNextBucketCount_eq, maximumNextBucketCount_eq]
  omega

theorem minimumNext_pos (count : Nat) : 0 < minimumNextBucketCount count := by
  rw [minimumNextBucketCount_eq]
  omega

theorem minimumNext_succ_le (hcount : 0 < count) :
    minimumNextBucketCount (count + 1) ≤ maximumNextBucketCount count := by
  rw [minimumNextBucketCount_eq, maximumNextBucketCount_eq]
  omega

theorem minimumNext_le_maximumNext (hcount : 0 < count) :
    minimumNextBucketCount count ≤ maximumNextBucketCount count :=
  Nat.le_trans (minimumNext_mono (Nat.le_succ count)) (minimumNext_succ_le hcount)

theorem maximumNext_pos (hcount : 0 < count) : 0 < maximumNextBucketCount count :=
  Nat.lt_of_lt_of_le (minimumNext_pos count) (minimumNext_le_maximumNext hcount)

end Paths

/-- The least and the greatest sum of `levels` bucket counts from `count` on. -/
def leastSum : Nat → Nat → Nat := pathSum minimumNextBucketCount
def greatestSum : Nat → Nat → Nat := pathSum maximumNextBucketCount

structure Attains (levels total count : Nat) : Prop where
  pos : 0 < count
  least : leastSum levels count ≤ total
  greatest : total ≤ greatestSum levels count

section Sums

variable {levels count total target sum : Nat}

theorem leastSum_mono (levels : Nat) : Monotone (leastSum levels) := pathSum_mono minimumNext_mono levels

theorem greatestSum_mono (levels : Nat) : Monotone (greatestSum levels) := pathSum_mono maximumNext_mono levels

theorem leastSum_le_greatestSum (hcount : 0 < count) : leastSum levels count ≤ greatestSum levels count := by
  induction levels generalizing count with
  | zero => exact Nat.le_refl _
  | succ levels ih =>
    have hnext := ih (minimumNext_pos count)
    have hmono := greatestSum_mono levels (minimumNext_le_maximumNext hcount)
    exact Nat.add_le_add_left (Nat.le_trans hnext hmono) count

theorem leastSum_succ_le (hcount : 0 < count) : leastSum levels (count + 1) ≤ greatestSum levels count + 1 := by
  cases levels with
  | zero => exact Nat.zero_le _
  | succ levels =>
    have hsucc := leastSum_mono levels (minimumNext_succ_le hcount)
    have hle : leastSum levels (maximumNextBucketCount count) ≤ greatestSum levels (maximumNextBucketCount count) :=
      leastSum_le_greatestSum (maximumNext_pos hcount)
    change count + 1 + leastSum levels (minimumNextBucketCount (count + 1)) ≤
      count + greatestSum levels (maximumNextBucketCount count) + 1
    omega

theorem exists_attains {first last : Nat} (hfirst : 0 < first) (hle : first ≤ last)
    (hleast : leastSum levels first ≤ total) (hgreatest : total ≤ greatestSum levels last) :
    ∃ count, first ≤ count ∧ count ≤ last ∧ Attains levels total count := by
  induction last, hle using Nat.le_induction with
  | base => exact ⟨first, Nat.le_refl _, Nat.le_refl _, hfirst, hleast, hgreatest⟩
  | succ last hle ih =>
    by_cases h : leastSum levels (last + 1) ≤ total
    · exact ⟨last + 1, Nat.le_succ_of_le hle, Nat.le_refl _, Nat.succ_pos _, h, hgreatest⟩
    · have hgap := @leastSum_succ_le levels last (Nat.lt_of_lt_of_le hfirst hle)
      obtain ⟨count, hcount, hlast, hattains⟩ := ih (by omega)
      exact ⟨count, hcount, Nat.le_succ_of_le hlast, hattains⟩

theorem minimumPathSumAtMost_iff (htarget : target ≤ usizeMax) (hsum : sum ≤ target) :
    minimumPathSumAtMost target levels count sum = true ↔ sum + leastSum levels count ≤ target := by
  induction levels generalizing count sum with
  | zero => exact ⟨fun _ => hsum, fun _ => rfl⟩
  | succ levels ih =>
    have hunfold : leastSum (levels + 1) count = count + leastSum levels (minimumNextBucketCount count) := rfl
    rw [hunfold, minimumPathSumAtMost]
    unfold checkedUsize
    by_cases hfit : sum + count ≤ target
    · rw [if_pos (Nat.le_trans hfit htarget)]
      dsimp only
      rw [if_neg (Nat.not_lt.mpr hfit), ih hfit, Nat.add_assoc]
    · split
      · rename_i heq
        simp only [Bool.false_eq_true, false_iff]
        omega
      · rename_i next heq
        split at heq <;> cases heq
        rw [if_pos (by omega)]
        simp only [Bool.false_eq_true, false_iff]
        omega

theorem maximumPathSumAtLeast_iff (htarget : target ≤ usizeMax) (hsum : sum < target) :
    maximumPathSumAtLeast target levels count sum = true ↔ target ≤ sum + greatestSum levels count := by
  induction levels generalizing count sum with
  | zero =>
    have hzero : greatestSum 0 count = 0 := rfl
    rw [hzero, maximumPathSumAtLeast]
    simp only [Bool.false_eq_true, false_iff]
    omega
  | succ levels ih =>
    have hunfold : greatestSum (levels + 1) count = count + greatestSum levels (maximumNextBucketCount count) := rfl
    rw [hunfold, maximumPathSumAtLeast]
    unfold checkedUsize
    by_cases hfit : sum + count < target
    · rw [if_pos (by omega)]
      dsimp only
      rw [if_neg (by omega), ih hfit, Nat.add_assoc]
    · split
      · simp only [true_iff]
        omega
      · rename_i next heq
        split at heq <;> cases heq
        rw [if_pos (by omega)]
        simp only [true_iff]
        omega

end Sums

section Greedy

variable {levels count total : Nat}

structure Follows (count next : Nat) : Prop where
  pos : 0 < next
  least : minimumNextBucketCount count ≤ next
  greatest : next ≤ maximumNextBucketCount count

theorem Follows.le {next : Nat} (h : Follows count next) : next ≤ count := by
  have := h.greatest
  rw [maximumNextBucketCount_eq] at this
  omega

theorem Follows.near {next : Nat} (h : Follows count next) : |4 * (next : Int) - 3 * count| ≤ 4 := by
  have hleast := h.least
  have hgreatest := h.greatest
  rw [minimumNextBucketCount_eq] at hleast
  rw [maximumNextBucketCount_eq] at hgreatest
  rw [abs_le]
  omega

theorem follows_iff {next : Nat} :
    Follows count next ↔ 0 < next ∧ next ≤ count ∧ |4 * (next : Int) - 3 * count| ≤ 4 := by
  constructor
  · intro h
    exact ⟨h.pos, h.le, h.near⟩
  · rintro ⟨hpos, hle, hnear⟩
    rw [abs_le] at hnear
    constructor
    · exact hpos
    · rw [minimumNextBucketCount_eq]
      omega
    · rw [maximumNextBucketCount_eq]
      omega

theorem attains_iff {target : Nat} (htarget : target ≤ usizeMax) (hpos : 0 < target) (hcount : 0 < count) :
    (minimumPathSumAtMost target levels count 0 && maximumPathSumAtLeast target levels count 0) = true ↔
      Attains levels target count := by
  rw [Bool.and_eq_true, minimumPathSumAtMost_iff htarget (Nat.zero_le _), maximumPathSumAtLeast_iff htarget hpos,
    Nat.zero_add, Nat.zero_add]
  exact ⟨fun h => ⟨hcount, h.1, h.2⟩, fun h => ⟨h.least, h.greatest⟩⟩

theorem le_of_find_falling {p : Nat → Bool} {l : List Nat} {found other : Nat} (hl : l.Pairwise (· > ·))
    (h : l.find? p = some found) (hmem : other ∈ l) (hp : p other = true) : other ≤ found := by
  obtain ⟨-, before, after, rfl, hbefore⟩ := List.find?_eq_some_iff_append.mp h
  rcases List.mem_append.mp hmem with hmem | hmem
  · have := hbefore other hmem
    rw [hp] at this
    cases this
  · rcases List.mem_cons.mp hmem with rfl | hmem
    · exact Nat.le_refl _
    · have hfalls := List.pairwise_cons.mp (List.pairwise_append.mp hl).2.1
      exact Nat.le_of_lt (hfalls.1 other hmem)

theorem selectLargestFeasibleNext_spec (hcount : 0 < count) (hlevels : 0 < levels) (htotal : total ≤ usizeMax)
    (h : Attains (levels + 1) (count + total) count) :
    ∃ next, selectLargestFeasibleNext count total levels = some next ∧ Follows count next ∧
      Attains levels total next ∧ ∀ other, Follows count other → Attains levels total other → other ≤ next := by
  have hleast : count + leastSum levels (minimumNextBucketCount count) ≤ count + total := h.least
  have hgreatest : count + total ≤ count + greatestSum levels (maximumNextBucketCount count) := h.greatest
  have hpos : 0 < total := by
    have : levels ≤ leastSum levels (minimumNextBucketCount count) := le_pathSum minimumNext_pos (minimumNext_pos count)
    omega
  obtain ⟨next, hfirst, hlast, hattains⟩ := exists_attains (minimumNext_pos count) (minimumNext_le_maximumNext hcount)
    (Nat.le_of_add_le_add_left hleast) (Nat.le_of_add_le_add_left hgreatest)
  have hmem : ∀ candidate, minimumNextBucketCount count ≤ candidate → candidate ≤ maximumNextBucketCount count →
      candidate ∈ (List.range' (minimumNextBucketCount count)
        (maximumNextBucketCount count + 1 - minimumNextBucketCount count)).reverse := by
    intro candidate hlow hhigh
    rw [List.mem_reverse, List.mem_range'_1]
    omega
  unfold selectLargestFeasibleNext
  dsimp only
  cases hfind : (List.range' (minimumNextBucketCount count)
      (maximumNextBucketCount count + 1 - minimumNextBucketCount count)).reverse.find? fun candidate =>
        minimumPathSumAtMost total levels candidate 0 && maximumPathSumAtLeast total levels candidate 0 with
  | none =>
    exact absurd ((attains_iff htotal hpos hattains.pos).mpr hattains)
      (List.find?_eq_none.mp hfind next (hmem next hfirst hlast))
  | some chosen =>
    have hchosen := List.mem_of_find?_eq_some hfind
    rw [List.mem_reverse, List.mem_range'_1] at hchosen
    have hchosenpos : 0 < chosen := Nat.lt_of_lt_of_le (minimumNext_pos count) hchosen.1
    have htrue := List.find?_some hfind
    refine ⟨chosen, rfl, ⟨hchosenpos, hchosen.1, by omega⟩, (attains_iff htotal hpos hchosenpos).mp htrue, ?_⟩
    intro other hfollows hother
    have hfalling : (List.range' (minimumNextBucketCount count)
        (maximumNextBucketCount count + 1 - minimumNextBucketCount count)).reverse.Pairwise (· > ·) :=
      List.pairwise_reverse.mpr (List.pairwise_lt_range' ..)
    exact le_of_find_falling hfalling hfind (hmem other hfollows.least hfollows.greatest)
      ((attains_iff htotal hpos hother.pos).mpr hother)

theorem take_one (h : Attains 1 total count) :
    total = count ∧ FunnelBucketCounts.take 1 ⟨some count, total, 1⟩ = ([count], ⟨none, 0, 0⟩) := by
  obtain rfl : total = count := Nat.le_antisymm h.greatest h.least
  have hnext : FunnelBucketCounts.next ⟨some total, total, 1⟩ = (some total, ⟨none, 0, 0⟩) := by
    unfold FunnelBucketCounts.next
    dsimp only
    rw [if_neg (by omega), Nat.sub_self 1, if_pos rfl, Nat.sub_self]
  rw [FunnelBucketCounts.take, hnext]
  exact ⟨rfl, rfl⟩

theorem take_cons (hlevels : 0 < levels) (htotal : total ≤ usizeMax) (h : Attains (levels + 1) total count) :
    ∃ next, Follows count next ∧ Attains levels (total - count) next ∧
      (∀ other, Follows count other → Attains levels (total - count) other → other ≤ next) ∧
      FunnelBucketCounts.take (levels + 1) ⟨some count, total, levels + 1⟩ =
        (count :: (FunnelBucketCounts.take levels ⟨some next, total - count, levels⟩).1,
          (FunnelBucketCounts.take levels ⟨some next, total - count, levels⟩).2) := by
  have hfit : count ≤ total := Nat.le_trans (count_le_pathSum (Nat.succ_pos levels)) h.least
  have hsplit : count + (total - count) = total := by omega
  obtain ⟨next, hselect, hfollows, hattains, hlargest⟩ := @selectLargestFeasibleNext_spec levels count
    (total - count) h.pos hlevels (by omega) (hsplit.symm ▸ h)
  have hnext : FunnelBucketCounts.next ⟨some count, total, levels + 1⟩ =
      (some count, ⟨some next, total - count, levels⟩) := by
    unfold FunnelBucketCounts.next
    dsimp only
    rw [if_neg (by omega), Nat.add_sub_cancel, if_neg (Nat.ne_of_gt hlevels), hselect]
  refine ⟨next, hfollows, hattains, hlargest, ?_⟩
  rw [FunnelBucketCounts.take, hnext]

theorem take_spec (hlevels : 0 < levels) (htotal : total ≤ usizeMax) (h : Attains levels total count) :
    ∃ counts, FunnelBucketCounts.take levels ⟨some count, total, levels⟩ = (counts, ⟨none, 0, 0⟩) ∧
      counts.length = levels ∧ counts.head? = some count ∧ counts.sum = total ∧ (∀ c ∈ counts, 0 < c) ∧
      counts.IsChain Follows := by
  induction levels generalizing count total with
  | zero => omega
  | succ levels ih =>
    rcases Nat.eq_zero_or_pos levels with rfl | hpos
    · obtain ⟨rfl, htake⟩ := take_one h
      refine ⟨[total], htake, rfl, rfl, List.sum_singleton, ?_, List.isChain_singleton _⟩
      rintro c hc
      rw [List.mem_singleton.mp hc]
      exact h.pos
    · have hfit : count ≤ total := Nat.le_trans (count_le_pathSum hlevels) h.least
      obtain ⟨next, hfollows, hattains, -, hcons⟩ := take_cons hpos htotal h
      obtain ⟨counts, htake, hlength, hhead, hsum, hall, hchain⟩ := ih hpos (by omega) hattains
      rw [hcons, htake]
      refine ⟨count :: counts, rfl, by rw [List.length_cons, hlength], rfl, ?_, ?_, ?_⟩
      · rw [List.sum_cons, hsum]
        omega
      · exact List.forall_mem_cons.mpr ⟨h.pos, hall⟩
      · cases counts with
        | nil => exact List.isChain_singleton _
        | cons first counts =>
          cases hhead
          exact List.isChain_cons_cons.mpr ⟨hfollows, hchain⟩

end Greedy

section First

variable {p : Nat → Bool} {fuel left right levels total : Nat}

theorem lowerBoundFrom_spec (hp : ∀ a b, a ≤ b → p a = true → p b = true) (hle : left ≤ right) (hright : p right = true)
    (hfuel : right - left < 2 ^ fuel) :
    p (lowerBoundFrom p fuel left right) = true ∧ left ≤ lowerBoundFrom p fuel left right ∧
      lowerBoundFrom p fuel left right ≤ right ∧
      (∀ a, left ≤ a → a < lowerBoundFrom p fuel left right → p a = false) := by
  induction fuel generalizing left right with
  | zero =>
    obtain rfl : left = right := by
      rw [Nat.pow_zero] at hfuel
      omega
    exact ⟨hright, Nat.le_refl _, Nat.le_refl _, fun a ha hlt => absurd hlt (Nat.not_lt.mpr ha)⟩
  | succ fuel ih =>
    rw [Nat.pow_succ] at hfuel
    rw [lowerBoundFrom]
    split
    · dsimp only
      split
      · rename_i hmiddle
        obtain ⟨htrue, hlow, hhigh, hbefore⟩ := @ih left (left + (right - left) / 2) (by omega) hmiddle (by omega)
        exact ⟨htrue, hlow, by omega, hbefore⟩
      · rename_i hmiddle
        obtain ⟨htrue, hlow, hhigh, hbefore⟩ := @ih (left + (right - left) / 2 + 1) right (by omega) hright (by omega)
        refine ⟨htrue, by omega, hhigh, fun a ha hlt => ?_⟩
        rcases Nat.lt_or_ge (left + (right - left) / 2) a with hgt | hge
        · exact hbefore a hgt hlt
        · rw [Bool.eq_false_iff]
          exact fun h => hmiddle (hp a _ hge h)
    · obtain rfl : left = right := by omega
      exact ⟨hright, Nat.le_refl _, Nat.le_refl _, fun a ha hlt => absurd hlt (Nat.not_lt.mpr ha)⟩

theorem upperBoundFrom_spec (hp : ∀ a b, a ≤ b → p b = true → p a = true) (hle : left ≤ right) (hleft : p left = true)
    (hfuel : right - left < 2 ^ fuel) :
    p (upperBoundFrom p fuel left right) = true ∧ left ≤ upperBoundFrom p fuel left right ∧
      upperBoundFrom p fuel left right ≤ right ∧
      (∀ a, upperBoundFrom p fuel left right < a → a ≤ right → p a = false) := by
  induction fuel generalizing left right with
  | zero =>
    obtain rfl : left = right := by
      rw [Nat.pow_zero] at hfuel
      omega
    exact ⟨hleft, Nat.le_refl _, Nat.le_refl _, fun a hlt ha => absurd ha (Nat.not_le.mpr hlt)⟩
  | succ fuel ih =>
    rw [Nat.pow_succ] at hfuel
    rw [upperBoundFrom]
    split
    · dsimp only
      split
      · rename_i hmiddle
        obtain ⟨htrue, hlow, hhigh, hafter⟩ := @ih (left + (right - left) / 2 + 1) right (by omega) hmiddle (by omega)
        exact ⟨htrue, by omega, hhigh, hafter⟩
      · rename_i hmiddle
        obtain ⟨htrue, hlow, hhigh, hafter⟩ := @ih left (left + (right - left) / 2 + 1 - 1) (by omega) hleft (by omega)
        refine ⟨htrue, hlow, by omega, fun a hlt ha => ?_⟩
        rcases Nat.lt_or_ge (left + (right - left) / 2) a with hgt | hge
        · rw [Bool.eq_false_iff]
          exact fun h => hmiddle (hp _ a hgt h)
        · exact hafter a hlt (by omega)
    · obtain rfl : left = right := by omega
      exact ⟨hleft, Nat.le_refl _, Nat.le_refl _, fun a hlt ha => absurd ha (Nat.not_le.mpr hlt)⟩

/-- `count` is at least as near to a quarter of the total as `other`, and no larger when both are as near. -/
def Nearer (total count other : Nat) : Prop :=
  |4 * (count : Int) - total| < |4 * (other : Int) - total| ∨
    |4 * (count : Int) - total| = |4 * (other : Int) - total| ∧ count ≤ other

theorem nearer_clamp {lower upper other : Nat} (hlower : lower ≤ other) (hupper : other ≤ upper) :
    Nearer total (min (max (if total % 4 ≤ 2 then total / 4 else total / 4 + 1) lower) upper) other := by
  unfold Nearer
  split
  · rcases abs_cases (4 * ((min (max (total / 4) lower) upper : Nat) : Int) - total) with h | h <;>
      rcases abs_cases (4 * (other : Int) - total) with h' | h' <;>
      omega
  · rcases abs_cases (4 * ((min (max (total / 4 + 1) lower) upper : Nat) : Int) - total) with h | h <;>
      rcases abs_cases (4 * (other : Int) - total) with h' | h' <;>
      omega

theorem nearestFeasibleFirstCount_spec (hlevels : 0 < levels) (hle : levels ≤ total) (htotal : total ≤ usizeMax) :
    ∃ first, nearestFeasibleFirstCount total levels = some first ∧ Attains levels total first ∧
      ∀ other, Attains levels total other → Nearer total first other := by
  have hpos : 0 < total := Nat.lt_of_lt_of_le hlevels hle
  have hreaches : ∀ count, maximumPathSumAtLeast total levels count 0 = true ↔ total ≤ greatestSum levels count :=
    fun count => by rw [maximumPathSumAtLeast_iff htotal hpos, Nat.zero_add]
  have hstays : ∀ count, minimumPathSumAtMost total levels count 0 = true ↔ leastSum levels count ≤ total :=
    fun count => by rw [minimumPathSumAtMost_iff htotal (Nat.zero_le _), Nat.zero_add]
  generalize hmaximum : total - (levels - 1) = maximumFirst
  have hmaxpos : 0 < maximumFirst := by omega
  -- The largest first count leaves a single bucket for each later level.
  have hlast : total ≤ greatestSum levels maximumFirst := by
    obtain ⟨later, rfl⟩ := Nat.exists_eq_succ_of_ne_zero (Nat.ne_of_gt hlevels)
    have hrest := @leastSum_le_greatestSum later _ (maximumNext_pos hmaxpos)
    have hlater : later ≤ leastSum later (maximumNextBucketCount maximumFirst) :=
      le_pathSum minimumNext_pos (maximumNext_pos hmaxpos)
    change total ≤ maximumFirst + greatestSum later (maximumNextBucketCount maximumFirst)
    omega
  have hone : ∀ levels, leastSum levels 1 = levels := by
    intro levels
    induction levels with
    | zero => rfl
    | succ levels ih =>
      change 1 + leastSum levels 1 = levels + 1
      rw [ih, Nat.add_comm]
  have hfuel : maximumFirst - 1 < 2 ^ 64 := by
    unfold usizeMax at htotal
    omega
  obtain ⟨hlower, hlowerpos, -, hbelow⟩ := lowerBoundFrom_spec
    (fun a b hab h => (hreaches b).mpr (Nat.le_trans ((hreaches a).mp h) (greatestSum_mono levels hab))) hmaxpos
    ((hreaches maximumFirst).mpr hlast) hfuel
  obtain ⟨hupper, -, -, habove⟩ := upperBoundFrom_spec
    (fun a b hab h => (hstays a).mpr (Nat.le_trans (leastSum_mono levels hab) ((hstays b).mp h))) hmaxpos
    ((hstays 1).mpr (by rw [hone]; exact hle)) hfuel
  unfold nearestFeasibleFirstCount
  dsimp only
  rw [hmaximum, if_neg (by omega), (hreaches maximumFirst).mpr hlast, Bool.not_true, if_neg Bool.false_ne_true,
    (hstays 1).mpr (by rw [hone]; exact hle), Bool.not_true, if_neg Bool.false_ne_true]
  generalize lowerBoundFrom (fun x => maximumPathSumAtLeast total levels x 0) 64 1 maximumFirst = lower at *
  generalize upperBoundFrom (fun x => minimumPathSumAtMost total levels x 0) 64 1 maximumFirst = upper at *
  have hbetween : ∀ count, Attains levels total count → lower ≤ count ∧ count ≤ upper := by
    intro count hattains
    have hcountle : count ≤ maximumFirst := by
      obtain ⟨later, rfl⟩ := Nat.exists_eq_succ_of_ne_zero (Nat.ne_of_gt hlevels)
      have hlater : later ≤ leastSum later (minimumNextBucketCount count) :=
        le_pathSum minimumNext_pos (minimumNext_pos count)
      have hleast : count + leastSum later (minimumNextBucketCount count) ≤ total := hattains.least
      omega
    constructor
    · by_contra hlt
      have := hbelow count hattains.pos (by omega)
      rw [(hreaches count).mpr hattains.greatest] at this
      cases this
    · by_contra hlt
      have := habove count (by omega) hcountle
      rw [(hstays count).mpr hattains.least] at this
      cases this
  obtain ⟨count, -, -, hattains⟩ := @exists_attains levels total 1 maximumFirst Nat.one_pos hmaxpos
    (by rw [hone]; exact hle) hlast
  have horder : lower ≤ upper := Nat.le_trans (hbetween count hattains).1 (hbetween count hattains).2
  rw [if_neg (Nat.not_lt.mpr horder)]
  have hnearest : ∀ other, Attains levels total other → Nearer total
      (min (max (if total % 4 ≤ 2 then total / 4 else total / 4 + 1) lower) upper) other :=
    fun other hother => nearer_clamp (hbetween other hother).1 (hbetween other hother).2
  generalize hchosen : min (max (if total % 4 ≤ 2 then total / 4 else total / 4 + 1) lower) upper = first at hnearest
  have hchoice : Attains levels total first := by
    refine ⟨?_, ?_, ?_⟩
    · omega
    · exact Nat.le_trans (leastSum_mono levels (by omega)) ((hstays upper).mp hupper)
    · exact Nat.le_trans ((hreaches lower).mp hlower) (greatestSum_mono levels (by omega))
  obtain ⟨counts, htake, hlength, -⟩ := take_spec hlevels htotal hchoice
  refine ⟨first, ?_, hchoice, hnearest⟩
  unfold validatedFirstCount
  rw [htake]
  exact if_pos ⟨hlength, rfl, rfl⟩

end First

end Opthash.Geometry
