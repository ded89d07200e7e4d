import Mathlib.Order.Bounds.Basic
import Opthash.Elastic.Placement
import Opthash.Exact.Pairing

namespace Opthash.Elastic

open Probe

section Budget

variable {free capacity d c k : Nat}

/-- The least exponent that scales the free slots up to the capacity. -/
def Dyadic (free capacity k : Nat) : Prop := IsLeast {k : Nat | capacity ≤ free * 2 ^ k} k

theorem Dyadic.unique {k' : Nat} (h : Dyadic free capacity k) (h' : Dyadic free capacity k') : k = k' := IsLeast.unique h h'

theorem le_mul_iff_ceiling (hfree : 0 < free) {m : Nat} :
    capacity ≤ free * m ↔ (capacity / free + if capacity % free = 0 then 0 else 1) ≤ m := by
  have hsplit := Nat.div_add_mod capacity free
  have hrest := Nat.mod_lt capacity hfree
  constructor
  · intro h
    split
    · rw [Nat.add_zero]
      exact Nat.div_le_of_le_mul h
    · by_contra hlt
      have hm : m ≤ capacity / free := by omega
      have := Nat.mul_le_mul_left free hm
      omega
  · intro h
    have hm := Nat.mul_le_mul_left free h
    rw [Nat.mul_add] at hm
    split at hm <;> omega

theorem dyadic_bitLength (hfree : 0 < free) (hle : free ≤ capacity) :
    Dyadic free capacity (bitLength ((capacity / free + if capacity % free = 0 then 0 else 1) - 1)) := by
  have hone : 1 ≤ capacity / free := (Nat.one_le_div_iff hfree).mpr hle
  have hceiling : ∀ k, capacity ≤ free * 2 ^ k ↔
      bitLength ((capacity / free + if capacity % free = 0 then 0 else 1) - 1) ≤ k := by
    intro k
    have hpow := Nat.two_pow_pos k
    rw [le_mul_iff_ceiling hfree, bitLength_le_iff]
    omega
  constructor
  · exact (hceiling _).mpr (Nat.le_refl _)
  · intro k hk
    exact (hceiling k).mp hk

theorem Dyadic.le_of_le {n : Nat} (h : Dyadic free capacity k) (hfree : 0 < free) (hcap : capacity ≤ 2 ^ n) : k ≤ n :=
  h.2 (Nat.le_trans hcap (Nat.le_mul_of_pos_left _ hfree))

theorem elasticDyadicProbeBudget_spec (hcap : capacity ≤ usizeMax) (hfree : 0 < free) (hle : free ≤ capacity) (hc : 0 < c)
    (hk : Dyadic free capacity k) :
    elasticDyadicProbeBudget free capacity d c =
      if c * min (k ^ 2) d ≤ usizeMax then .ok (c * min (k ^ 2) d) else .error .overflow := by
  have hratio : (if capacity % free = 0 then some (capacity / free) else checkedUsize (capacity / free + 1)) =
      some (capacity / free + if capacity % free = 0 then 0 else 1) := by
    split
    · rfl
    · rename_i hrest
      have htwo : 2 ≤ free := by
        by_contra hlt
        obtain rfl : free = 1 := by omega
        exact hrest (Nat.mod_one capacity)
      have hhalf : capacity / free ≤ capacity / 2 := Nat.div_le_div_left htwo (by decide)
      unfold usizeMax at hcap
      exact if_pos (by unfold usizeMax; omega)
  have hlog := hk.unique (dyadic_bitLength hfree hle)
  have hsmall : k ≤ 64 := by
    apply hk.le_of_le hfree
    unfold usizeMax at hcap
    omega
  have hsquared : checkedUsize (k * k) = some (k ^ 2) := by
    have := Nat.mul_le_mul hsmall hsmall
    rw [Nat.pow_two]
    exact if_pos (by unfold usizeMax; omega)
  rw [elasticDyadicProbeBudget, if_neg (by omega), if_neg (Nat.ne_of_gt hc)]
  dsimp only
  rw [hratio]
  dsimp only
  rw [← hlog, hsquared]
  dsimp only
  unfold checkedUsize
  by_cases hfit : c * min (k ^ 2) d ≤ usizeMax
  · rw [if_pos hfit, if_pos hfit]
  · rw [if_neg hfit, if_neg hfit]

theorem exists_dyadic (hfree : 0 < free) (hle : free ≤ capacity) : ∃ k, Dyadic free capacity k :=
  ⟨_, dyadic_bitLength hfree hle⟩

theorem elasticDyadicProbeBudget_error_iff (hcap : capacity ≤ usizeMax) :
    (∃ e, elasticDyadicProbeBudget free capacity d c = .error e) ↔
      free = 0 ∨ capacity < free ∨ c = 0 ∨ ∃ k, Dyadic free capacity k ∧ usizeMax < c * min (k ^ 2) d := by
  by_cases hslots : free = 0 ∨ free > capacity
  · rw [elasticDyadicProbeBudget, if_pos hslots]
    constructor
    · intro _
      tauto
    · intro _
      exact ⟨_, rfl⟩
  · by_cases hc : c = 0
    · rw [elasticDyadicProbeBudget, if_neg hslots, if_pos hc]
      constructor
      · intro _
        exact .inr (.inr (.inl hc))
      · intro _
        exact ⟨_, rfl⟩
    · obtain ⟨k, hk⟩ := @exists_dyadic free capacity (by omega) (by omega)
      rw [elasticDyadicProbeBudget_spec hcap (by omega) (by omega) (Nat.pos_of_ne_zero hc) hk]
      constructor
      · rintro ⟨e, he⟩
        split at he
        · cases he
        · exact .inr (.inr (.inr ⟨k, hk, by omega⟩))
      · rintro (h | h | h | ⟨k', hk', hover⟩)
        · omega
        · omega
        · exact absurd h hc
        · obtain rfl := hk.unique hk'
          exact ⟨.overflow, if_neg (by omega)⟩

theorem elasticDyadicProbeBudget_ok {budget : Nat} (hcap : capacity ≤ usizeMax)
    (h : elasticDyadicProbeBudget free capacity d c = .ok budget) :
    ∃ k, Dyadic free capacity k ∧ budget = c * min (k ^ 2) d := by
  have hno : ¬∃ e, elasticDyadicProbeBudget free capacity d c = .error e := by
    rintro ⟨e, he⟩
    rw [h] at he
    cases he
  rw [elasticDyadicProbeBudget_error_iff hcap] at hno
  obtain ⟨k, hk⟩ := @exists_dyadic free capacity (by omega) (by omega)
  rw [elasticDyadicProbeBudget_spec hcap (by omega) (by omega) (by omega) hk] at h
  split at h
  · exact ⟨k, hk, (Except.ok.inj h).symm⟩
  · cases h

end Budget

namespace ElasticTable

variable {K V : Type} {t : ElasticTable K V} {x : UInt64} {target : BatchTarget}

def CurrentLow (t : ElasticTable K V) (current : Level K V) : Prop :=
  current.freeSlots ≤ t.reserveFraction.floorHalfReserved current.region.capacity

def NextLow (next : Level K V) : Prop := saturatingUsize (next.freeSlots * 4) ≤ next.region.capacity

structure Pair (t : ElasticTable K V) (i : Nat) (current next : Level K V) : Prop where
  current : t.levels[i]? = some current
  next : t.levels[i + 1]? = some next

/-- The searches for a new key's slot: the level, and how many of its probes are tried at most. -/
inductive Searches (t : ElasticTable K V) (x : UInt64) : BatchTarget → Nat → Nat → Prop
  | bootstrap (h : t.levels ≠ []) : Searches t x .bootstrap 0 (levelProbeLimit 0)
  | nearlyFull {i : Nat} {current next : Level K V} (h : t.Pair i current next) (hlow : t.CurrentLow current) :
      Searches t x (.levelPair i) (i + 1) (levelProbeLimit (i + 1))
  | nextNearlyFull {i : Nat} {current next : Level K V} (h : t.Pair i current next) (hlow : ¬t.CurrentLow current)
      (hnext : NextLow next) : Searches t x (.levelPair i) i (levelProbeLimit i)
  | bounded {i budget : Nat} {current next : Level K V} (h : t.Pair i current next) (hlow : ¬t.CurrentLow current)
      (hnext : ¬NextLow next) (hbudget : elasticDyadicProbeBudget current.freeSlots current.region.capacity
        t.reserveFraction.exponent elasticProbeBudgetC = .ok budget) :
      Searches t x (.levelPair i) i (min budget (levelProbeLimit i))
  | fallback {i budget : Nat} {current next : Level K V} (h : t.Pair i current next) (hlow : ¬t.CurrentLow current)
      (hnext : ¬NextLow next) (hbudget : elasticDyadicProbeBudget current.freeSlots current.region.capacity
        t.reserveFraction.exponent elasticProbeBudgetC = .ok budget)
      (hfails : t.firstVacancy (PreparedElasticKey.new x).probe i (min budget (levelProbeLimit i)) = none) :
      Searches t x (.levelPair i) (i + 1) (levelProbeLimit (i + 1))

variable {level slot j n : Nat}

theorem Searches.le_limit (h : t.Searches x target level n) : n ≤ levelProbeLimit level := by
  cases h with
  | bounded h hlow hnext hbudget => exact Nat.min_le_right ..
  | _ => exact Nat.le_refl _

theorem selectSlot_pair {probe : PreparedElasticProbe} {i : Nat} {current next : Level K V} (h : t.Pair i current next) :
    t.selectSlot probe (.levelPair i) =
      if current.freeSlots ≤ t.reserveFraction.floorHalfReserved current.region.capacity then
        (t.uniformVacancy probe (i + 1)).map fun found => (i + 1, found)
      else if saturatingUsize (next.freeSlots * 4) ≤ next.region.capacity then
        (t.uniformVacancy probe i).map fun found => (i, found)
      else (elasticDyadicProbeBudget current.freeSlots current.region.capacity t.reserveFraction.exponent
          elasticProbeBudgetC).toOption.bind fun budget =>
        (((t.firstVacancy probe i (min budget (levelProbeLimit i))).map fun found => (i, found)).or
          ((t.uniformVacancy probe (i + 1)).map fun found => (i + 1, found))) := by
  rw [selectSlot, h.current, h.next]
  change (if _ then _ else if _ then _ else Option.bind _ _) = _
  congr 3
  funext budget
  cases t.firstVacancy probe i (min budget (levelProbeLimit i)) <;> rfl

theorem Searches.level_lt (h : t.Searches x target level n) : level < t.levels.length := by
  cases h with
  | bootstrap h => exact List.length_pos_of_ne_nil h
  | nearlyFull h hlow => exact (List.getElem?_eq_some_iff.mp h.next).1
  | nextNearlyFull h hlow hnext => exact (List.getElem?_eq_some_iff.mp h.current).1
  | bounded h hlow hnext hbudget => exact (List.getElem?_eq_some_iff.mp h.current).1
  | fallback h hlow hnext hbudget hfails => exact (List.getElem?_eq_some_iff.mp h.next).1

theorem Searches.selects (h : t.Searches x target level n)
    (hfound : t.firstVacancy (PreparedElasticKey.new x).probe level n = some (slot, j)) :
    t.selectSlot (PreparedElasticKey.new x).probe target = some (level, slot, j) := by
  cases h with
  | bootstrap h =>
    rw [selectSlot, uniformVacancy, hfound]
    rfl
  | nearlyFull h hlow =>
    unfold CurrentLow at hlow
    rw [selectSlot_pair h, if_pos hlow, uniformVacancy, hfound]
    rfl
  | nextNearlyFull h hlow hnext =>
    unfold CurrentLow at hlow
    unfold NextLow at hnext
    rw [selectSlot_pair h, if_neg hlow, if_pos hnext, uniformVacancy, hfound]
    rfl
  | bounded h hlow hnext hbudget =>
    unfold CurrentLow at hlow
    unfold NextLow at hnext
    rw [selectSlot_pair h, if_neg hlow, if_neg hnext, hbudget, Except.toOption, Option.bind_some, hfound]
    rfl
  | fallback h hlow hnext hbudget hfails =>
    unfold CurrentLow at hlow
    unfold NextLow at hnext
    rw [selectSlot_pair h, if_neg hlow, if_neg hnext, hbudget, Except.toOption, Option.bind_some, hfails,
      uniformVacancy, hfound]
    rfl

theorem tried_iff (hw : t.Wf) (hlevel : level < t.levels.length) (hj : 0 < j) :
    j ≤ levelProbeLimit level ↔ ∃ position, elasticPhi (level + 1) j = .ok position ∧ position ≤ queryPositionCap := by
  have hl := Nat.lt_of_lt_of_le hlevel hw.levels
  rw [le_levelProbeLimit hl hj]
  constructor
  · intro h
    have hsmall := probe_le_of_phi_le (Nat.succ_pos level) h
    exact ⟨_, elasticPhi_of_level hl hj (by omega), h⟩
  · rintro ⟨position, hposition, hle⟩
    obtain ⟨-, -, -, rfl⟩ := elasticPhi_ok_iff.mp hposition
    exact hle

theorem Searches.returned (hw : t.Wf) (h : t.Searches x target level n)
    (hfound : t.firstVacancy (PreparedElasticKey.new x).probe level n = some (slot, j)) :
    ∃ position, elasticPhiBounded (level + 1) j = some position ∧ elasticPhi (level + 1) j = .ok position ∧
      position ≤ queryPositionCap ∧ t.Offers x level slot j ∧ j ≤ n ∧
      t.chooseSlotForNewKey (PreparedElasticKey.new x).probe target = some ⟨level, slot, position⟩ := by
  obtain ⟨hoffers, hn⟩ := firstVacancy_spec hfound
  have hl := Nat.lt_of_lt_of_le hoffers.lt hw.levels
  obtain ⟨position, hposition, hle⟩ := (tried_iff hw hoffers.lt hoffers.pos).mp (Nat.le_trans hn h.le_limit)
  obtain ⟨-, -, -, rfl⟩ := elasticPhi_ok_iff.mp hposition
  have hsmall := probe_le_of_phi_le (Nat.succ_pos level) hle
  have hbounded := elasticPhiBounded_eq (i := level + 1) (Nat.succ_pos level) (by omega) hoffers.pos (by omega)
  have hlevels : t.levels ≠ [] := by
    intro hnil
    have := hoffers.lt
    rw [hnil] at this
    exact absurd this (Nat.not_lt_zero level)
  refine ⟨_, hbounded, hposition, hle, hoffers, hn, ?_⟩
  rw [chooseSlotForNewKey, if_neg hlevels, h.selects hfound, Option.bind_eq_bind, Option.bind_some]
  dsimp only
  rw [hbounded, Option.bind_eq_bind, Option.bind_some, if_neg (Nat.not_lt.mpr hle)]

theorem firstVacancy_none (h : t.firstVacancy (PreparedElasticKey.new x).probe level n = none) (hj : 0 < j) (hn : j ≤ n) :
    t.vacancy level (PreparedElasticKey.new x).probe (j - 1) = none := by
  have hall := List.findSome?_eq_none_iff.mp h (j - 1) (List.mem_range.mpr (by omega))
  exact Option.map_eq_none_iff.mp hall

theorem bounded_budget {i : Nat} {current next : Level K V} (hw : t.Wf) (h : t.Pair i current next)
    (hlow : ¬t.CurrentLow current) :
    ∃ k, Dyadic current.freeSlots current.region.capacity k ∧
      elasticDyadicProbeBudget current.freeSlots current.region.capacity t.reserveFraction.exponent elasticProbeBudgetC =
        .ok (elasticProbeBudgetC * min (k ^ 2) t.reserveFraction.exponent) := by
  have hcap : current.region.capacity ≤ u32Max := hw.small _ (List.mem_map_of_mem (List.mem_of_getElem? h.current))
  have hfree : 0 < current.freeSlots := Nat.lt_of_le_of_lt (Nat.zero_le _) (Nat.lt_of_not_le hlow)
  have hle : current.freeSlots ≤ current.region.capacity := Nat.sub_le ..
  obtain ⟨k, hk⟩ := exists_dyadic hfree hle
  unfold u32Max at hcap
  have hsmall : k ≤ 32 := hk.le_of_le hfree (by omega)
  have hsquare := Nat.mul_le_mul hsmall hsmall
  refine ⟨k, hk, ?_⟩
  rw [elasticDyadicProbeBudget_spec (by unfold usizeMax; omega) hfree hle (by decide) hk]
  apply if_pos
  unfold elasticProbeBudgetC usizeMax
  rw [Nat.pow_two]
  omega

theorem searches_current_iff {i : Nat} {current next : Level K V} (hw : t.Wf) (h : t.Pair i current next)
    (hlow : ¬t.CurrentLow current) (hnext : ¬NextLow next) :
    t.Searches x (.levelPair i) i n ↔ ∃ k, Dyadic current.freeSlots current.region.capacity k ∧
      n = min (elasticProbeBudgetC * min (k ^ 2) t.reserveFraction.exponent) (levelProbeLimit i) := by
  obtain ⟨k, hk, hbudget⟩ := bounded_budget hw h hlow
  have hsame : ∀ {current' next' : Level K V}, t.Pair i current' next' → current' = current ∧ next' = next := by
    intro current' next' h'
    exact ⟨Option.some.inj (h'.current.symm.trans h.current), Option.some.inj (h'.next.symm.trans h.next)⟩
  constructor
  · intro hsearch
    cases hsearch with
    | nextNearlyFull h' hlow' hnext' =>
      obtain ⟨rfl, rfl⟩ := hsame h'
      exact absurd hnext' hnext
    | bounded h' hlow' hnext' hbudget' =>
      obtain ⟨rfl, rfl⟩ := hsame h'
      rw [hbudget] at hbudget'
      obtain rfl := Except.ok.inj hbudget'
      exact ⟨k, hk, rfl⟩
  · rintro ⟨k', hk', rfl⟩
    obtain rfl := hk.unique hk'
    exact .bounded h hlow hnext hbudget

theorem exists_searches {placement : ExactPlacement}
    (h : t.chooseSlotForNewKey (PreparedElasticKey.new x).probe target = some placement) :
    ∃ n j, t.Searches x target placement.level n ∧
      t.firstVacancy (PreparedElasticKey.new x).probe placement.level n = some (placement.slot, j) := by
  rw [chooseSlotForNewKey] at h
  split at h
  · cases h
  rename_i hlevels
  obtain ⟨⟨level, slot, j⟩, hselect, h⟩ := Option.bind_eq_some_iff.mp h
  obtain ⟨position, -, h⟩ := Option.bind_eq_some_iff.mp h
  split at h
  · cases h
  obtain rfl := Option.some.inj h
  dsimp only
  have huniform : ∀ level', ((t.uniformVacancy (PreparedElasticKey.new x).probe level').map
      fun found => (level', found)) = some (level, slot, j) → level' = level ∧
      t.firstVacancy (PreparedElasticKey.new x).probe level (levelProbeLimit level) = some (slot, j) := by
    intro level' hmap
    obtain ⟨⟨slot', j'⟩, hfound, heq⟩ := Option.map_eq_some_iff.mp hmap
    cases heq
    exact ⟨rfl, hfound⟩
  cases target with
  | bootstrap =>
    obtain ⟨rfl, hfound⟩ := huniform 0 hselect
    exact ⟨_, j, .bootstrap hlevels, hfound⟩
  | levelPair i =>
    obtain ⟨current, hcurrent, hrest⟩ := Option.bind_eq_some_iff.mp hselect
    obtain ⟨next, hnextLevel, -⟩ := Option.bind_eq_some_iff.mp hrest
    have hpair : t.Pair i current next := ⟨hcurrent, hnextLevel⟩
    rw [selectSlot_pair hpair] at hselect
    split at hselect
    · rename_i hlow
      obtain ⟨rfl, hfound⟩ := huniform (i + 1) hselect
      exact ⟨_, j, .nearlyFull hpair hlow, hfound⟩
    rename_i hlow
    split at hselect
    · rename_i hnext
      obtain ⟨rfl, hfound⟩ := huniform i hselect
      exact ⟨_, j, .nextNearlyFull hpair hlow hnext, hfound⟩
    rename_i hnext
    obtain ⟨budget, hbudget, hfind⟩ := Option.bind_eq_some_iff.mp hselect
    have hok : elasticDyadicProbeBudget current.freeSlots current.region.capacity t.reserveFraction.exponent
        elasticProbeBudgetC = .ok budget := by
      cases hresult : elasticDyadicProbeBudget current.freeSlots current.region.capacity t.reserveFraction.exponent
        elasticProbeBudgetC with
      | ok budget' =>
        rw [hresult] at hbudget
        exact congrArg Except.ok (Option.some.inj hbudget)
      | error e =>
        rw [hresult] at hbudget
        cases hbudget
    cases hfound : t.firstVacancy (PreparedElasticKey.new x).probe i (min budget (levelProbeLimit i)) with
    | some found =>
      rw [hfound] at hfind
      cases hfind
      exact ⟨_, j, .bounded hpair hlow hnext hok, hfound⟩
    | none =>
      rw [hfound] at hfind
      obtain ⟨rfl, hfound'⟩ := huniform (i + 1) hfind
      exact ⟨_, j, .fallback hpair hlow hnext hok hfound, hfound'⟩

end ElasticTable

end Opthash.Elastic
