import Opthash.Funnel.Table

namespace Opthash.Funnel

open Probe Opthash.Geometry

def Consecutive (beta : Nat) : Nat → List LevelShape → Nat → Prop
  | offset, [], stop => offset = stop
  | offset, level :: levels, stop =>
    level.offset = offset ∧ 0 < level.bucketRange.upper ∧
      Consecutive beta (offset + level.bucketRange.upper * beta) levels stop

namespace Consecutive

variable {beta offset stop : Nat} {levels before later : List LevelShape} {level : LevelShape}

theorem le (h : Consecutive beta offset levels stop) : offset ≤ stop := by
  induction levels generalizing offset with
  | nil => exact Nat.le_of_eq h
  | cons level levels ih => exact Nat.le_trans (Nat.le_add_right ..) (ih h.2.2)

theorem offset_le (h : Consecutive beta offset levels stop) (hl : level ∈ levels) :
    offset ≤ level.offset := by
  induction levels generalizing offset with
  | nil => cases hl
  | cons first levels ih =>
    rcases List.mem_cons.mp hl with rfl | hl
    · exact Nat.le_of_eq h.1.symm
    · exact Nat.le_trans (Nat.le_add_right ..) (ih h.2.2 hl)

theorem split (h : Consecutive beta offset (before ++ level :: later) stop) :
    (∀ l ∈ before, l.offset ≤ level.offset) ∧ 0 < level.bucketRange.upper ∧
      Consecutive beta (level.offset + level.bucketRange.upper * beta) later stop := by
  induction before generalizing offset with
  | nil =>
    obtain ⟨rfl, hpos, hrest⟩ := h
    exact ⟨fun _ h => absurd h List.not_mem_nil, hpos, hrest⟩
  | cons first before ih =>
    obtain ⟨rfl, -, hrest⟩ := h
    obtain ⟨hle, hpos, hlater⟩ := ih hrest
    refine ⟨?_, hpos, hlater⟩
    rw [List.forall_mem_cons]
    refine ⟨?_, hle⟩
    exact Nat.le_trans (Nat.le_add_right ..) (hrest.offset_le (List.mem_append_right _ (List.mem_cons_self ..)))

end Consecutive

namespace FunnelShape

structure Laid (s : FunnelShape) : Prop where
  levels : Consecutive s.beta 0 s.levels s.primaryOffset
  primary : 0 < s.primaryRange.upper
  fallbackOffset : s.fallbackOffset = s.primaryOffset + s.primaryRange.upper
  fallback : 0 < s.fallbackBucketRange.upper
  stop : s.fallbackOffset + s.fallbackBucketRange.upper * s.fallbackBucketWidth ≤ s.n

end FunnelShape

theorem rangeOrOverflow_spec {upper : Nat} {range : PreparedProbeRange}
    (h : rangeOrOverflow upper = .ok range) : range.upper = upper ∧ 0 < upper := by
  simp only [rangeOrOverflow, PreparedProbeRange.new] at h
  split at h
  · rename_i heq
    split at heq
    · cases heq
    · cases heq
      cases h
      exact ⟨rfl, by omega⟩
  · cases h

theorem orOverflow_spec {α : Type} {o : Option α} {a : α} (h : orOverflow o = .ok a) : o = some a := by
  cases o <;> cases h
  rfl

theorem ordinaryLevels_consecutive {beta : Nat} {counts : List Nat} {index offset stop : Nat}
    {levels : List LevelShape} (h : ordinaryLevels beta counts index offset = .ok (levels, stop)) :
    Consecutive beta offset levels stop := by
  induction counts generalizing index offset levels with
  | nil =>
    cases h
    rfl
  | cons count counts ih =>
    rw [ordinaryLevels] at h
    obtain ⟨range, hrange, h⟩ := bind_ok h
    obtain ⟨base, -, h⟩ := bind_ok h
    obtain ⟨slots, hslots, h⟩ := bind_ok h
    obtain ⟨next, hnext, h⟩ := bind_ok h
    obtain ⟨⟨rest, stop'⟩, hrest, h⟩ := bind_ok h
    cases h
    obtain ⟨hupper, hpos⟩ := rangeOrOverflow_spec hrange
    obtain ⟨rfl, -⟩ := checkedUsize_spec (orOverflow_spec hslots)
    obtain ⟨rfl, -⟩ := checkedUsize_spec (orOverflow_spec hnext)
    refine ⟨rfl, by rwa [hupper], ?_⟩
    rw [hupper]
    exact ih hrest

namespace FunnelShape

theorem fromPlan_laid {n m : Nat} {plan : FunnelPlan} {s : FunnelShape}
    (h : fromPlan n m plan = .ok s) : s.Laid ∧ s.n = n ∧ s.maxInsertions = m := by
  rw [fromPlan] at h
  obtain ⟨⟨levels, primaryOffset⟩, hlevels, h⟩ := bind_ok h
  obtain ⟨primaryRange, hprimary, h⟩ := bind_ok h
  obtain ⟨fallbackOffset, hfallback, h⟩ := bind_ok h
  obtain ⟨stop, hstop, h⟩ := bind_ok h
  dsimp only at hfallback hstop h
  obtain ⟨hupper, hpos⟩ := rangeOrOverflow_spec hprimary
  obtain ⟨rfl, -⟩ := checkedUsize_spec (orOverflow_spec hfallback)
  obtain ⟨rfl, -⟩ := checkedUsize_spec (orOverflow_spec hstop)
  split at h
  · cases h
  · rename_i hn
    split at h
    · cases h
    · obtain ⟨range, hrange, h⟩ := bind_ok h
      obtain ⟨hfupper, hfpos⟩ := rangeOrOverflow_spec hrange
      cases h
      refine ⟨⟨ordinaryLevels_consecutive hlevels, by rwa [hupper], by rw [hupper], by rwa [hfupper], ?_⟩,
        rfl, rfl⟩
      have hdiv := Nat.div_mul_le_self plan.specialFallbackLen plan.fallbackBucketWidth
      simp only [hfupper, FunnelPlan.fallbackBucketCount]
      omega

theorem fromSlots_spec {n : Nat} {r : ReserveFraction} {s : FunnelShape} (h : fromSlots n r = .ok s) :
    s.n = n ∧ (n = 0 → s = empty) ∧ (n ≠ 0 → s.Laid ∧ s.maxInsertions = Capacity.maxInsertions n r) := by
  unfold fromSlots at h
  split at h
  · rename_i hn
    cases h
    exact ⟨hn.symm, fun _ => rfl, fun h => absurd hn h⟩
  · rename_i hn
    split at h
    · cases h
    · rename_i config hconfig
      split at h
      · cases h
      · rename_i plan hplan
        obtain ⟨hlaid, hs, hm⟩ := fromPlan_laid h
        refine ⟨hs, fun h => absurd h hn, fun _ => ⟨hlaid, ?_⟩⟩
        rw [hm]
        unfold PaperConfig.new at hconfig
        split at hconfig
        · cases hconfig
        · split at hconfig
          · cases hconfig
          · cases hconfig
            rfl

theorem maxInsertions_le {n : Nat} {r : ReserveFraction} {s : FunnelShape} (h : fromSlots n r = .ok s) :
    s.maxInsertions ≤ s.n := by
  obtain ⟨hn, hzero, hpos⟩ := fromSlots_spec h
  by_cases h0 : n = 0
  · rw [hzero h0]
    exact Nat.le_refl _
  · rw [(hpos h0).2, hn]
    exact Capacity.maxInsertions_le n r

theorem searchBudget_spec {requested fuel n : Nat} {r : ReserveFraction} {s : FunnelShape}
    (h : searchBudget requested r fuel n = .ok s) : requested ≤ s.maxInsertions ∧ fromSlots s.n r = .ok s := by
  induction fuel generalizing n with
  | zero => cases h
  | succ fuel ih =>
    rw [searchBudget] at h
    split at h
    · rename_i shape hshape
      split at h
      · rename_i hm
        cases h
        rw [(fromSlots_spec hshape).1]
        exact ⟨hm, hshape⟩
      · exact ih h
    · exact ih h

theorem forInsertBudget_spec {requested : Nat} {r : ReserveFraction} {s : FunnelShape}
    (h : forInsertBudget requested r = .ok s) : requested ≤ s.maxInsertions ∧ fromSlots s.n r = .ok s := by
  unfold forInsertBudget at h
  split at h
  · rename_i h0
    cases h
    exact ⟨Nat.le_of_eq h0, rfl⟩
  · split at h
    · cases h
    · obtain ⟨_, -, h⟩ := bind_ok h
      dsimp only at h
      obtain ⟨_, -, h⟩ := bind_ok h
      obtain ⟨_, -, h⟩ := bind_ok h
      exact searchBudget_spec h

def Planned (s : FunnelShape) (r : ReserveFraction) : Prop := fromSlots s.n r = .ok s

theorem planned_empty (r : ReserveFraction) : empty.Planned r := rfl

end FunnelShape

namespace FunnelTable

variable {K V : Type} {t : FunnelTable K V}

theorem levelBit_ordinary (h : t.shape.Laid) {before later : List LevelShape} {level : LevelShape}
    (hlevels : t.shape.levels = before ++ level :: later) {slot : Nat} (hfirst : level.offset ≤ slot)
    (hlast : slot < level.offset + level.bucketRange.upper * t.shape.beta) :
    t.levelBit slot = levelBitOf before.length := by
  have hcons := h.levels
  rw [hlevels] at hcons
  obtain ⟨hbefore, -, hlater⟩ := hcons.split
  have hbeyond : ∀ l ∈ later, slot < l.offset := fun l hl => Nat.lt_of_lt_of_le hlast (hlater.offset_le hl)
  unfold levelBit
  rw [hlevels]
  rcases Nat.lt_or_ge before.length overflowLevel with hlt | hge
  · have hstart : slot < (((before ++ level :: later)[overflowLevel]?).elim t.shape.primaryOffset
        LevelShape.offset) := by
      rw [List.getElem?_append_right (Nat.le_of_lt hlt)]
      obtain ⟨k, hk⟩ : ∃ k, overflowLevel - before.length = k + 1 := ⟨overflowLevel - before.length - 1, by omega⟩
      rw [hk, List.getElem?_cons_succ]
      cases hl : later[k]? with
      | none => exact Nat.lt_of_lt_of_le hlast hlater.le
      | some l => exact hbeyond l (List.mem_of_getElem? hl)
    rw [if_neg (Nat.not_le.mpr hstart)]
    have hstop : later.takeWhile (fun l => decide (l.offset ≤ slot)) = [] := by
      cases later with
      | nil => rfl
      | cons l later =>
        rw [List.takeWhile_cons, if_neg]
        have := hbeyond l (List.mem_cons_self ..)
        simpa using this
    congr 1
    cases before with
    | nil => simp [hstop]
    | cons first before =>
      have hall : ∀ l ∈ before ++ [level], decide (l.offset ≤ slot) = true := by
        intro l hl
        rw [decide_eq_true_eq]
        rcases List.mem_append.mp hl with hl | hl
        · exact Nat.le_trans (hbefore l (List.mem_cons_of_mem _ hl)) hfirst
        · rw [List.mem_singleton.mp hl]
          exact hfirst
      have hdrop : ((first :: before) ++ level :: later).drop 1 = (before ++ [level]) ++ later := by simp
      rw [hdrop, List.takeWhile_append_of_pos hall, hstop]
      simp
  · have hstart : ((before ++ level :: later)[overflowLevel]?).elim t.shape.primaryOffset
        LevelShape.offset ≤ slot := by
      rcases Nat.lt_or_ge overflowLevel before.length with hin | hout
      · rw [List.getElem?_append_left hin, List.getElem?_eq_getElem hin]
        exact Nat.le_trans (hbefore _ (List.getElem_mem hin)) hfirst
      · have : overflowLevel - before.length = 0 := by omega
        rw [List.getElem?_append_right hout, this, List.getElem?_cons_zero]
        exact hfirst
    rw [if_pos hstart, overflowLevelBit, levelBitOf, levelBitOf, Nat.min_self, Nat.min_eq_right hge]

theorem levelBit_special (h : t.shape.Laid) {slot : Nat} (hslot : t.shape.primaryOffset ≤ slot) :
    t.levelBit slot = overflowLevelBit := by
  unfold levelBit
  rw [if_pos]
  cases hl : t.shape.levels[overflowLevel]? with
  | none => exact hslot
  | some level =>
    obtain ⟨before, later, hlevels⟩ := List.append_of_mem (List.mem_of_getElem? hl)
    have hcons := h.levels
    rw [hlevels] at hcons
    obtain ⟨-, -, hlater⟩ := hcons.split
    have := hlater.le
    simp only [Option.elim_some, ge_iff_le]
    omega

end FunnelTable

end Opthash.Funnel
