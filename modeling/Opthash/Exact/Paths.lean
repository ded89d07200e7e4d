import Opthash.Exact.Counts

namespace Opthash.Geometry

/-- Positive counts of consecutive levels, each about three quarters of the one before. -/
structure BucketPath (levels total : Nat) (counts : List Nat) : Prop where
  length : counts.length = levels
  pos : ∀ count ∈ counts, 0 < count
  steps : counts.IsChain fun current next : Nat => next ≤ current ∧ |4 * (next : Int) - 3 * current| ≤ 4
  sum : counts.sum = total

section Paths

variable {levels total count next : Nat} {counts rest : List Nat}

theorem bucketPath_iff :
    BucketPath levels total counts ↔
      counts.length = levels ∧ (∀ count ∈ counts, 0 < count) ∧ counts.IsChain Follows ∧ counts.sum = total := by
  constructor
  · intro h
    have hsteps : counts.IsChain Follows := h.steps.imp_of_mem_imp fun _ next _ hnext hstep =>
      follows_iff.mpr ⟨h.pos next hnext, hstep⟩
    exact ⟨h.length, h.pos, hsteps, h.sum⟩
  · rintro ⟨hlength, hpos, hsteps, hsum⟩
    exact ⟨hlength, hpos, hsteps.imp fun _ _ h => ⟨h.le, h.near⟩, hsum⟩

theorem BucketPath.tail (h : BucketPath (levels + 1) total (count :: rest)) :
    BucketPath levels (total - count) rest := by
  have hsum := h.sum
  have hlength := h.length
  rw [List.sum_cons] at hsum
  rw [List.length_cons] at hlength
  exact ⟨by omega, fun c hc => h.pos c (List.mem_cons_of_mem _ hc), h.steps.tail, by omega⟩

theorem BucketPath.follows (h : BucketPath levels total (count :: next :: rest)) : Follows count next :=
  (List.isChain_cons_cons.mp (bucketPath_iff.mp h).2.2.1).1

theorem BucketPath.attains (h : BucketPath levels total (count :: rest)) : Attains levels total count := by
  induction rest generalizing levels total count with
  | nil =>
    have hlength : 1 = levels := h.length
    have hsum : count = total := by
      have := h.sum
      rwa [List.sum_singleton] at this
    subst hlength hsum
    exact ⟨h.pos count (List.mem_singleton_self _), Nat.le_refl _, Nat.le_refl _⟩
  | cons next rest ih =>
    obtain ⟨later, rfl⟩ : ∃ later, levels = later + 1 := ⟨_, h.length.symm⟩
    have hfollows := h.follows
    have hnext := ih h.tail
    have hsum := h.sum
    rw [List.sum_cons] at hsum
    have hleast := Nat.le_trans (leastSum_mono later hfollows.least) hnext.least
    have hgreatest := Nat.le_trans hnext.greatest (greatestSum_mono later hfollows.greatest)
    constructor
    · exact h.pos count (List.mem_cons_self ..)
    · change count + leastSum later (minimumNextBucketCount count) ≤ total
      omega
    · change total ≤ count + greatestSum later (maximumNextBucketCount count)
      omega

theorem take_largest (htotal : total ≤ usizeMax) (h : Attains levels total count)
    {before after : List Nat} {current other : Nat}
    (htake : (FunnelBucketCounts.take levels ⟨some count, total, levels⟩).1 = before ++ current :: next :: after)
    (hpath : BucketPath levels total (before ++ current :: other :: rest)) : other ≤ next := by
  induction levels generalizing count total before with
  | zero =>
    have := hpath.length
    simp at this
  | succ levels ih =>
    rcases Nat.eq_zero_or_pos levels with rfl | hpos
    · have hlength := congrArg List.length htake
      rw [(take_one h).2] at hlength
      simp at hlength
      omega
    · obtain ⟨chosen, hfollows, hattains, hlargest, hcons⟩ := take_cons hpos htotal h
      rw [hcons] at htake
      cases before with
      | nil =>
        obtain ⟨rfl, hrest⟩ := List.cons.inj htake
        obtain ⟨counts, hcounts, -, hhead, -⟩ := take_spec hpos (by omega) hattains
        rw [hcounts] at hrest
        change counts = next :: after at hrest
        rw [hrest] at hhead
        obtain rfl := Option.some.inj hhead
        exact hlargest other hpath.follows hpath.tail.attains
      | cons first before =>
        obtain ⟨rfl, hrest⟩ := List.cons.inj htake
        exact ih (by omega) hattains hrest hpath.tail

/-- The first count is the nearest one that some path starts from, and each later count the largest that fits. -/
theorem nearestFeasibleFirstCount_exact (hlevels : 0 < levels) (hle : levels ≤ total) (htotal : total ≤ usizeMax) :
    ∃ first rest last, nearestFeasibleFirstCount total levels = some first ∧
      FunnelBucketCounts.take levels ⟨some first, total, levels⟩ = (first :: rest, last) ∧ last.next.1 = none ∧
      BucketPath levels total (first :: rest) ∧
      (∀ other others, BucketPath levels total (other :: others) → Nearer total first other) ∧
      ∀ before current next after, first :: rest = before ++ current :: next :: after →
        ∀ other others, BucketPath levels total (before ++ current :: other :: others) → other ≤ next := by
  obtain ⟨first, hfirst, hattains, hnearest⟩ := nearestFeasibleFirstCount_spec hlevels hle htotal
  obtain ⟨counts, htake, hlength, hhead, hsum, hpos, hchain⟩ := take_spec hlevels htotal hattains
  cases counts with
  | nil => cases hhead
  | cons head rest =>
    obtain rfl := Option.some.inj hhead
    refine ⟨head, rest, ⟨none, 0, 0⟩, hfirst, htake, rfl, ?_, ?_, ?_⟩
    · exact bucketPath_iff.mpr ⟨hlength, hpos, hchain, hsum⟩
    · intro other others hother
      exact hnearest other hother.attains
    · intro before current next after hsplit other others hother
      have hitems : (FunnelBucketCounts.take levels ⟨some head, total, levels⟩).1 =
          before ++ current :: next :: after := by
        rw [htake, hsplit]
      exact take_largest htotal hattains hitems hother

theorem nearestFeasibleFirstCount_exact_ten :
    ∃ first rest last, nearestFeasibleFirstCount 10 3 = some first ∧
      FunnelBucketCounts.take 3 ⟨some first, 10, 3⟩ = (first :: rest, last) ∧ last.next.1 = none ∧
      BucketPath 3 10 (first :: rest) ∧
      (∀ other others, BucketPath 3 10 (other :: others) → Nearer 10 first other) ∧
      ∀ before current next after, first :: rest = before ++ current :: next :: after →
        ∀ other others, BucketPath 3 10 (before ++ current :: other :: others) → other ≤ next :=
  nearestFeasibleFirstCount_exact (by decide) (by decide) (by decide)

example : nearestFeasibleFirstCount 10 3 = some 4 ∧ (FunnelBucketCounts.take 3 ⟨some 4, 10, 3⟩).1 = [4, 4, 2] := by
  decide

end Paths

end Opthash.Geometry
