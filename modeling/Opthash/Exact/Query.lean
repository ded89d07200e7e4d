import Opthash.Exact.Reference

namespace Opthash.Reference.ScalarElastic

open Probe

variable {s : ScalarElastic} {identity : UInt64} {h11 : Option Nat} {q : ScalarElasticQuery}

/-- The slot that a lookup inspects at a position, if its range reduction succeeds. -/
def slotAt (s : ScalarElastic) (identity : UInt64) (position : Nat) : Option Nat :=
  let probe := (s.mapped position).getD (0, 0)
  s.route probe.1 identity probe.2

def Meets (s : ScalarElastic) (identity : UInt64) (position : Nat) : Prop :=
  ∃ globalSlot, s.slotAt identity position = some globalSlot ∧ s.slots[globalSlot]? = some (some identity)

/-- A lookup gets past a position: its reduction succeeds and the slot holds something else. -/
def Passes (s : ScalarElastic) (identity : UInt64) (position : Nat) : Prop :=
  ∃ globalSlot stored, s.slotAt identity position = some globalSlot ∧ s.slots[globalSlot]? = some stored ∧
    stored ≠ some identity

theorem Passes.not_meets {position : Nat} (h : s.Passes identity position) : ¬s.Meets identity position := by
  obtain ⟨globalSlot, stored, hslot, hstored, hne⟩ := h
  rintro ⟨globalSlot', hslot', hmeets⟩
  obtain rfl := Option.some.inj (hslot.symm.trans hslot')
  exact hne (Option.some.inj (hstored.symm.trans hmeets))

/-- A remembered first slot is the one its reduction gives again. -/
def Remembers (s : ScalarElastic) (identity : UInt64) (h11 : Option Nat) : Prop :=
  ∀ globalSlot, h11 = some globalSlot → s.route 0 identity 0 = some globalSlot

theorem Remembers.or (h : s.Remembers identity h11) : h11.or (s.route 0 identity 0) = s.route 0 identity 0 := by
  cases h11 with
  | none => rfl
  | some globalSlot => rw [h globalSlot rfl, Option.some_or]

/-- Nothing can be read at the position: its reduction fails, or its slot is not there. -/
def Sticks (s : ScalarElastic) (identity : UInt64) (position : Nat) : Prop :=
  ∀ globalSlot, s.slotAt identity position = some globalSlot → s.slots[globalSlot]? = none

theorem meets_or (s : ScalarElastic) (identity : UInt64) (position : Nat) :
    s.Meets identity position ∨ s.Passes identity position ∨ s.Sticks identity position := by
  cases hslot : s.slotAt identity position with
  | none => exact .inr (.inr fun globalSlot h => by rw [hslot] at h; cases h)
  | some globalSlot =>
    cases hstored : s.slots[globalSlot]? with
    | none =>
      refine .inr (.inr fun globalSlot' h => ?_)
      obtain rfl := Option.some.inj (hslot.symm.trans h)
      exact hstored
    | some stored =>
      by_cases hsame : stored = some identity
      · exact .inl ⟨globalSlot, hslot, hsame ▸ hstored⟩
      · exact .inr (.inl ⟨globalSlot, stored, hslot, hstored, hsame⟩)

section Walk

variable {remaining position mappedPositions gapPositions : Nat}

theorem queryFrom_succ (hh : s.Remembers identity h11) (remaining position mappedPositions gapPositions : Nat) :
    ∃ m g, m + g = mappedPositions + gapPositions + 1 ∧ ∃ h11' : Nat → Option Nat,
      (∀ globalSlot, s.slotAt identity position = some globalSlot → s.Remembers identity (h11' globalSlot)) ∧
      s.queryFrom identity (remaining + 1) position h11 mappedPositions gapPositions =
        (s.slotAt identity position).bind fun globalSlot => (s.slots[globalSlot]?).bind fun stored =>
          if stored = some identity then some ⟨position, globalSlot, position, m, g, position⟩
          else s.queryFrom identity remaining (position + 1) (h11' globalSlot) m g := by
  rw [queryFrom, slotAt]
  generalize s.mapped position = probe
  rcases probe.getD (0, 0) with ⟨level, logicalIndex⟩
  refine ⟨if probe.isSome then mappedPositions + 1 else mappedPositions,
    if probe.isSome then gapPositions else gapPositions + 1, ?_, fun globalSlot =>
    if decide (level = 0 ∧ logicalIndex = 0) = true then some globalSlot else h11, ?_, ?_⟩
  · split <;> omega
  · intro globalSlot hslot
    split
    · rename_i hfirst
      obtain ⟨rfl, rfl⟩ := of_decide_eq_true hfirst
      intro globalSlot' heq
      rw [← Option.some.inj heq]
      exact hslot
    · exact hh
  · dsimp only
    by_cases hfirst : decide (level = 0 ∧ logicalIndex = 0) = true
    · rw [if_pos hfirst]
      obtain ⟨rfl, rfl⟩ := of_decide_eq_true hfirst
      rw [hh.or]
      rfl
    · rw [if_neg hfirst]
      rfl

theorem queryFrom_some (hh : s.Remembers identity h11)
    (h : s.queryFrom identity remaining position h11 mappedPositions gapPositions = some q) :
    position ≤ q.foundPosition ∧ q.foundPosition < position + remaining ∧
      (∀ p, position ≤ p → p < q.foundPosition → s.Passes identity p) ∧
      s.slotAt identity q.foundPosition = some q.globalSlot ∧ s.slots[q.globalSlot]? = some (some identity) ∧
      q.mappedPositions + q.gapPositions + position = mappedPositions + gapPositions + q.foundPosition + 1 := by
  induction remaining generalizing position h11 mappedPositions gapPositions with
  | zero => cases h
  | succ remaining ih =>
    obtain ⟨m, g, hcount, h11', hremembers, hstep⟩ := queryFrom_succ hh remaining position mappedPositions
      gapPositions
    rw [hstep] at h
    obtain ⟨globalSlot, hslot, h⟩ := Option.bind_eq_some_iff.mp h
    obtain ⟨stored, hstored, h⟩ := Option.bind_eq_some_iff.mp h
    split at h
    · rename_i hsame
      cases h
      exact ⟨Nat.le_refl _, by simp, fun p hlow hhigh => absurd hhigh (Nat.not_lt.mpr hlow), hslot, hsame ▸ hstored,
        by simp only; omega⟩
    · rename_i hne
      obtain ⟨hlow, hhigh, hpasses, hfound⟩ := ih (hremembers globalSlot hslot) h
      refine ⟨by omega, by omega, ?_, hfound.1, hfound.2.1, by omega⟩
      intro p hp hlt
      rcases Nat.eq_or_lt_of_le hp with rfl | hlater
      · exact ⟨globalSlot, stored, hslot, hstored, hne⟩
      · exact hpasses p hlater hlt

theorem queryFrom_none (hh : s.Remembers identity h11)
    (h : s.queryFrom identity remaining position h11 mappedPositions gapPositions = none) {p : Nat}
    (hlow : position ≤ p) (hhigh : p < position + remaining) (hmeets : s.Meets identity p) :
    ∃ p' < p, s.Sticks identity p' := by
  induction remaining generalizing position h11 mappedPositions gapPositions with
  | zero => omega
  | succ remaining ih =>
    obtain ⟨m, g, -, h11', hremembers, hstep⟩ := queryFrom_succ hh remaining position mappedPositions
      gapPositions
    rw [hstep] at h
    rcases s.meets_or identity position with hm | hp | hs
    · obtain ⟨globalSlot, hslot, hstored⟩ := hm
      rw [hslot, Option.bind_some, hstored, Option.bind_some, if_pos rfl] at h
      cases h
    · have hne : position ≠ p := by
        rintro rfl
        exact hp.not_meets hmeets
      obtain ⟨globalSlot, stored, hslot, hstored, hother⟩ := hp
      rw [hslot, Option.bind_some, hstored, Option.bind_some, if_neg hother] at h
      exact ih (hremembers globalSlot hslot) h (by omega) (by omega)
    · rcases Nat.eq_or_lt_of_le hlow with rfl | hlt
      · obtain ⟨globalSlot, hslot, hstored⟩ := hmeets
        rw [hs globalSlot hslot] at hstored
        cases hstored
      · exact ⟨position, hlt, hs⟩

end Walk

theorem remembers_none : s.Remembers identity none := fun _ h => by cases h

theorem query_of_meets {p : Nat} (hpos : 0 < p) (hcap : p ≤ s.limits.hitQueryPositionCap) (hmeets : s.Meets identity p) :
    (∃ q, s.query identity = some q ∧ q.foundPosition ≤ p ∧ s.slots[q.globalSlot]? = some (some identity)) ∨
      ∃ p' < p, s.Sticks identity p' := by
  cases h : s.query identity with
  | none => exact .inr (queryFrom_none remembers_none h hpos (by omega) hmeets)
  | some q =>
    obtain ⟨-, -, hpasses, -, hfound, -⟩ := queryFrom_some remembers_none h
    refine .inl ⟨q, rfl, ?_, hfound⟩
    by_contra hlt
    exact (hpasses p hpos (Nat.lt_of_not_le hlt)).not_meets hmeets

end Opthash.Reference.ScalarElastic
