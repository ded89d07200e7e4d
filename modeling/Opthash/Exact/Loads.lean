import Opthash.Exact.Quotas

namespace Opthash.Geometry

def fullLoad (reserveExponent level : Nat) : Nat := level - floorDivPow2 level (reserveExponent + 1)

/-- The insertions after which a batch is over, before the cut at the insertion limit. -/
def batchEnd (reserveExponent : Nat) (levels : List Nat) (batch : Nat) : Nat :=
  rawQuotaSum reserveExponent none (levels.take (batch + 1))

/-- The loads of the levels in a batch: the levels before its pair are full, those after it are empty. -/
inductive Batched (d : Nat) : List Nat → List Nat → Prop
  | first {level x : Nat} (after : List Nat) (hx : x ≤ ceilThreeQuarters level) :
      Batched d (level :: after) (x :: after.map fun _ => 0)
  | pair (before : List Nat) {current next x y : Nat} (after : List Nat) (hstart : ceilThreeQuarters current ≤ x)
      (hx : x ≤ fullLoad d current) (hy : y ≤ ceilThreeQuarters next) :
      Batched d (before ++ current :: next :: after) (before.map (fullLoad d) ++ x :: y :: after.map fun _ => 0)

inductive Active (d : Nat) : List Nat → List Nat → Nat → Prop
  | first {level x : Nat} (after : List Nat) (hx : x < ceilThreeQuarters level) :
      Active d (level :: after) (x :: after.map fun _ => 0) 0
  | pair (before : List Nat) {current next x y : Nat} (after : List Nat) (hstart : ceilThreeQuarters current ≤ x)
      (hx : x ≤ fullLoad d current) (hy : y ≤ ceilThreeQuarters next)
      (hroom : x + y < fullLoad d current + ceilThreeQuarters next) :
      Active d (before ++ current :: next :: after) (before.map (fullLoad d) ++ x :: y :: after.map fun _ => 0)
        (before.length + 1)

variable {d batch max : Nat} {levels loads before after : List Nat}

theorem sum_map_zero (levels : List Nat) : (levels.map fun _ => 0).sum = 0 := by
  induction levels with
  | nil => rfl
  | cons level levels ih => rw [List.map_cons, List.sum_cons, ih]

theorem ceilThreeQuarters_pos {level : Nat} (h : 0 < level) : 0 < ceilThreeQuarters level := by
  unfold ceilThreeQuarters
  omega

theorem ceilThreeQuarters_le_self (level : Nat) : ceilThreeQuarters level ≤ level := Nat.sub_le ..

section Ends

theorem rawQuotaSum_some (hd : 0 < d) (previous : Nat) (before : List Nat) (last : Nat) :
    rawQuotaSum d (some previous) (before ++ [last]) + ceilThreeQuarters previous =
      fullLoad d previous + (before.map (fullLoad d)).sum + ceilThreeQuarters last := by
  have hle := ceilThreeQuarters_le hd previous
  induction before generalizing previous with
  | nil =>
    rw [List.nil_append, rawQuotaSum, rawQuotaSum, List.map_nil, List.sum_nil, fullLoad]
    omega
  | cons level before ih =>
    have hrest := ih level (ceilThreeQuarters_le hd level)
    rw [List.cons_append, rawQuotaSum, List.map_cons, List.sum_cons]
    unfold fullLoad at hrest ⊢
    omega

theorem rawQuotaSum_none (hd : 0 < d) (before : List Nat) (last : Nat) :
    rawQuotaSum d none (before ++ [last]) = (before.map (fullLoad d)).sum + ceilThreeQuarters last := by
  cases before with
  | nil => rw [List.nil_append, rawQuotaSum, rawQuotaSum, List.map_nil, List.sum_nil, Nat.add_comm]
  | cons level before =>
    have hrest := rawQuotaSum_some hd level before last
    rw [List.cons_append, rawQuotaSum, List.map_cons, List.sum_cons]
    omega

theorem batchEnd_append (hd : 0 < d) (before : List Nat) (level : Nat) (after : List Nat) :
    batchEnd d (before ++ level :: after) before.length = (before.map (fullLoad d)).sum + ceilThreeQuarters level := by
  have htake : (before ++ level :: after).take (before.length + 1) = before ++ [level] := by simp [List.take_append]
  rw [batchEnd, htake, rawQuotaSum_none hd]

theorem batchEnd_append_succ (hd : 0 < d) (before : List Nat) (current next : Nat) (after : List Nat) :
    batchEnd d (before ++ current :: next :: after) (before.length + 1) =
      (before.map (fullLoad d)).sum + (fullLoad d current + ceilThreeQuarters next) := by
  have happend := batchEnd_append hd (before ++ [current]) next after
  rw [List.append_assoc, List.length_append, List.map_append, List.sum_append] at happend
  simpa [Nat.add_assoc] using happend

theorem split_at (h : batch < levels.length) : ∃ before level after, levels = before ++ level :: after ∧
    before.length = batch := by
  refine ⟨levels.take batch, levels[batch], levels.drop (batch + 1), ?_, List.length_take_of_le (Nat.le_of_lt h)⟩
  rw [← List.drop_eq_getElem_cons h, List.take_append_drop]

theorem batchEnd_lt_succ (hd : 0 < d) (hpos : ∀ level ∈ levels, 0 < level) (h : batch + 1 < levels.length) :
    batchEnd d levels batch < batchEnd d levels (batch + 1) := by
  obtain ⟨before, current, rest, rfl, rfl⟩ := split_at (Nat.lt_of_succ_lt h)
  cases rest with
  | nil => simp at h
  | cons next after =>
    have hnext := ceilThreeQuarters_pos (hpos next (by simp))
    have hfit := ceilThreeQuarters_le hd current
    rw [batchEnd_append hd, batchEnd_append_succ hd]
    unfold fullLoad
    omega

theorem batchEnd_lt (hd : 0 < d) (hpos : ∀ level ∈ levels, 0 < level) {earlier : Nat} (h : earlier < batch)
    (hbatch : batch < levels.length) : batchEnd d levels earlier < batchEnd d levels batch := by
  induction batch, h using Nat.le_induction with
  | base => exact batchEnd_lt_succ hd hpos hbatch
  | succ batch _ ih => exact (ih (Nat.lt_of_succ_lt hbatch)).trans (batchEnd_lt_succ hd hpos hbatch)

theorem sum_take_batchQuotasFrom (d : Nat) (previous : Option Nat) (remaining : Nat) (levels : List Nat) (n : Nat) :
    ((batchQuotasFrom d previous remaining levels).take n).sum = min (rawQuotaSum d previous (levels.take n)) remaining := by
  have htake : (batchQuotasFrom d previous remaining levels).take n =
      batchQuotasFrom d previous remaining (levels.take n) := by
    induction levels generalizing previous remaining n with
    | nil => simp only [batchQuotasFrom, List.take_nil]
    | cons level levels ih =>
      cases n with
      | zero => simp only [List.take_zero, batchQuotasFrom]
      | succ n => simp only [batchQuotasFrom, List.take_succ_cons, ih]
  rw [htake, batchQuotasFrom_sum]

end Ends

section Batches

theorem batched_start (levels : List Nat) (h : levels ≠ []) : Batched d levels (levels.map fun _ => 0) := by
  cases levels with
  | nil => exact absurd rfl h
  | cons level after => exact .first after (Nat.zero_le _)

theorem sum_first (x : Nat) (after : List Nat) : (x :: after.map fun _ => 0).sum = x := by
  rw [List.sum_cons, sum_map_zero, Nat.add_zero]

theorem sum_pair (before : List Nat) (x y : Nat) (after : List Nat) :
    (before.map (fullLoad d) ++ x :: y :: after.map fun _ => 0).sum = (before.map (fullLoad d)).sum + (x + y) := by
  rw [List.sum_append, List.sum_cons, List.sum_cons, sum_map_zero, Nat.add_zero]

theorem Batched.active (hd : 0 < d) (hpos : ∀ level ∈ levels, 0 < level) (h : Batched d levels loads)
    (hroom : loads.sum < rawQuotaSum d none levels) : ∃ batch, Active d levels loads batch := by
  cases h with
  | @first level x after hx =>
    rcases Nat.lt_or_eq_of_le hx with hlt | rfl
    · exact ⟨0, .first after hlt⟩
    · rw [sum_first] at hroom
      cases after with
      | nil => simp [rawQuotaSum] at hroom
      | cons next after =>
        have hnext := ceilThreeQuarters_pos (hpos next (by simp))
        have hfit := ceilThreeQuarters_le hd level
        exact ⟨1, .pair (y := 0) [] after (Nat.le_refl _) hfit (Nat.zero_le _) (by unfold fullLoad; omega)⟩
  | @pair before current next x y after hstart hx hy =>
    by_cases hlt : x + y < fullLoad d current + ceilThreeQuarters next
    · exact ⟨_, .pair before after hstart hx hy hlt⟩
    · obtain rfl : x = fullLoad d current := by omega
      obtain rfl : y = ceilThreeQuarters next := by omega
      rw [sum_pair] at hroom
      cases after with
      | nil =>
        have hend := batchEnd_append_succ hd before current next []
        rw [batchEnd, List.take_of_length_le (by simp)] at hend
        omega
      | cons third after =>
        have hthird := ceilThreeQuarters_pos (hpos third (by simp))
        have hfit := ceilThreeQuarters_le hd next
        refine ⟨before.length + 1 + 1, ?_⟩
        have hactive := Active.pair (d := d) (y := 0) (before ++ [current]) after (Nat.le_refl (ceilThreeQuarters next))
          hfit (Nat.zero_le (ceilThreeQuarters third)) (by unfold fullLoad; omega)
        simpa using hactive

theorem Batched.ended (hd : 0 < d) (hpos : ∀ level ∈ levels, 0 < level) (h : Batched d levels loads)
    (hbatch : batch + 1 < levels.length) (hend : loads.sum = batchEnd d levels (batch + 1)) :
    loads.getD batch 0 = fullLoad d (levels.getD batch 0) ∧
      loads.getD (batch + 1) 0 = ceilThreeQuarters (levels.getD (batch + 1) 0) := by
  cases h with
  | @first level x after hx =>
    have hfirst := batchEnd_append hd [] level after
    have hlt := batchEnd_lt hd hpos (Nat.succ_pos batch) hbatch
    rw [sum_first] at hend
    simp at hfirst hlt
    omega
  | @pair before current next x y after hstart hx hy =>
    have hlow := batchEnd_append hd before current (next :: after)
    have hhigh := batchEnd_append_succ hd before current next after
    have hlength : (before ++ current :: next :: after).length = before.length + 1 + 1 + after.length := by
      simp only [List.length_append, List.length_cons]
      omega
    rw [sum_pair] at hend
    have hafter : before.length ≤ batch + 1 := by
      by_contra hlt
      have := batchEnd_lt hd hpos (Nat.lt_of_not_le hlt) (by omega)
      omega
    have hbefore : batch + 1 ≤ before.length + 1 := by
      by_contra hlt
      have := batchEnd_lt hd hpos (Nat.lt_of_not_le hlt) hbatch
      omega
    rcases Nat.lt_or_eq_of_le hbefore with hlt | heq
    · have hsame : before.length = batch + 1 := by omega
      obtain rfl : x = ceilThreeQuarters current := by
        rw [← hsame, hlow] at hend
        omega
      have hin : batch < before.length := by omega
      constructor
      · simp [List.getD_eq_getElem?_getD, List.getElem?_append_left, hin]
      · rw [← hsame]
        simp [List.getD_eq_getElem?_getD]
    · obtain rfl : batch = before.length := by omega
      rw [hhigh] at hend
      obtain rfl : x = fullLoad d current := by omega
      obtain rfl : y = ceilThreeQuarters next := by omega
      constructor
      · simp [List.getD_eq_getElem?_getD]
      · simp [List.getD_eq_getElem?_getD]

theorem Active.sum_ge (hd : 0 < d) (h : Active d levels loads (batch + 1)) : batchEnd d levels batch ≤ loads.sum := by
  cases h with
  | pair before after hstart hx hy hroom =>
    rw [batchEnd_append hd, sum_pair]
    omega

theorem Active.sum_lt (hd : 0 < d) (h : Active d levels loads batch) : loads.sum < batchEnd d levels batch := by
  cases h with
  | @first level x after hx =>
    have hfirst := batchEnd_append hd [] level after
    rw [sum_first]
    simp at hfirst
    omega
  | pair before after hstart hx hy hroom =>
    rw [batchEnd_append_succ hd, sum_pair]
    omega

theorem Active.lt_length (h : Active d levels loads batch) : batch < levels.length := by
  cases h with
  | first => simp
  | pair => simp

section Placements

theorem Active.load_first (h : Active d levels loads 0) :
    loads.getD 0 0 < ceilThreeQuarters (levels.getD 0 0) := by
  cases h with
  | first after hx => exact hx

theorem Active.not_both (h : Active d levels loads (batch + 1)) : loads.getD batch 0 < fullLoad d (levels.getD batch 0) ∨
    loads.getD (batch + 1) 0 < ceilThreeQuarters (levels.getD (batch + 1) 0) := by
  cases h with
  | @pair before current next x y after hstart hx hy hroom =>
    have hlt : x < fullLoad d current ∨ y < ceilThreeQuarters next := by omega
    simpa [List.getD_eq_getElem?_getD] using hlt

theorem Active.place_first (h : Active d levels loads 0) : Batched d levels (loads.modify 0 (· + 1)) := by
  cases h with
  | first after hx => exact .first after hx

theorem Active.place_current (h : Active d levels loads (batch + 1))
    (hlow : loads.getD batch 0 < fullLoad d (levels.getD batch 0)) : Batched d levels (loads.modify batch (· + 1)) := by
  cases h with
  | @pair before current next x y after hstart hx hy hroom =>
    have hlow : x < fullLoad d current := by simpa [List.getD_eq_getElem?_getD] using hlow
    have hmodify := List.modifyTailIdx_add (List.modifyHead (· + 1)) 0 (before.map (fullLoad d))
      (x :: y :: after.map fun _ => 0)
    rw [List.length_map, Nat.add_zero] at hmodify
    rw [List.modify, hmodify]
    exact .pair before after (Nat.le_succ_of_le hstart) hlow hy

theorem Active.place_next (h : Active d levels loads (batch + 1))
    (hlow : loads.getD (batch + 1) 0 < ceilThreeQuarters (levels.getD (batch + 1) 0)) :
    Batched d levels (loads.modify (batch + 1) (· + 1)) := by
  cases h with
  | @pair before current next x y after hstart hx hy hroom =>
    have hlow : y < ceilThreeQuarters next := by simpa [List.getD_eq_getElem?_getD] using hlow
    have hmodify := List.modifyTailIdx_add (List.modifyHead (· + 1)) 1 (before.map (fullLoad d))
      (x :: y :: after.map fun _ => 0)
    rw [List.length_map] at hmodify
    rw [List.modify, hmodify]
    exact .pair before after hstart hx hlow

end Placements

end Batches

end Opthash.Geometry
