import Opthash.Shell.Elements

namespace Opthash.HashSet

open Exec FiniteMap FiniteSet HashMap

variable {W T : Type} {b : Side → TableBackend W T Unit} {u : Side → User W T Unit}
  {R : (side : Side) → Reading (b side).Table (b side).Location (b side).Vacant (b side).Scan T Unit}
  {hash : Side → T → UInt64} {eqv : T → T → Bool} {ts : Sets b} {w : World W T Unit} {side : Side}

section Within

variable {α : Type}

theorem wp_within (side : Side) (c : HashMap.Step (b side) α) (Q : α → Sets b × World W T Unit → Prop)
    (Z : Panic → Sets b × World W T Unit → Prop) :
    wp (within b side c) Q Z (ts, w) ↔
      wp c (fun a s => Q a (Function.update ts side s.1, s.2)) (fun p s => Z p (Function.update ts side s.1, s.2))
        (ts side, w) := wp_zoom _ _ c

theorem side_ne_other (side : Side) : side.other ≠ side := by cases side <;> exact Side.noConfusion

theorem other_other (side : Side) : side.other.other = side := by cases side <;> rfl

theorem update_other (ts : Sets b) (side : Side) (t : (b side).Table) :
    Function.update ts side t side.other = ts side.other := Function.update_of_ne (side_ne_other side) t ts

def Unwound (u : Side → User W T Unit) (p : Panic) : Prop := ∃ side, (u side).Unwound p

end Within

section Tests

variable {b₁ : TableBackend W T Unit} {R₁ : Reading b₁.Table b₁.Location b₁.Vacant b₁.Scan T Unit} {t : b₁.Table}
  {present : Bool} {x y : T}

def answer (R₁ : Reading b₁.Table b₁.Location b₁.Vacant b₁.Scan T Unit) (eqv : T → T → Bool) (t : b₁.Table)
    (present : Bool) (x : T) : Bool := (find eqv x (R₁.entries t)).isSome == present

theorem isSome_find : (find eqv x (R₁.entries t)).isSome = true ↔ x ∈ elements R₁ eqv t := by
  rw [← not_iff_not, not_mem_elements, Bool.not_eq_true, Option.isSome_eq_false_iff, Option.isNone_iff_eq_none]

theorem answer_true : answer R₁ eqv t true x = true ↔ x ∈ elements R₁ eqv t := by
  rw [answer, beq_iff_eq, isSome_find]

theorem answer_false : answer R₁ eqv t false x = true ↔ x ∉ elements R₁ eqv t := by
  rw [answer, beq_iff_eq, ← isSome_find, Bool.not_eq_true]

theorem answer_congr (h : Equality eqv) (hxy : eqv x y = true) : answer R₁ eqv t present x = answer R₁ eqv t present y := by
  have hsame : (find eqv x (R₁.entries t)).isSome = (find eqv y (R₁.entries t)).isSome := by
    rw [Bool.eq_iff_iff, isSome_find, isSome_find]
    exact mem_listed_congr h hxy
  rw [answer, answer, hsame]

end Tests

section Iterators

def Remaining (R : (side : Side) → Reading (b side).Table (b side).Location (b side).Vacant (b side).Scan T Unit)
    (side : Side) (t : (b side).Table) (i : Iter b) (xs : List T) : Prop :=
  ∃ scan locs es, i = ⟨side, scan, es.length⟩ ∧ xs = es.map Prod.fst ∧ (R side).Scanning t scan locs ∧
    List.Forall₂ ((R side).Holds t) locs es ∧ locs.length ≤ (b side).totalSlots t

theorem Remaining.fuel {i : Iter b} {xs : List T} (h : Remaining R side (ts side) i xs) :
    xs.length < fuel b ts side := by
  obtain ⟨scan, locs, es, -, rfl, -, hholds, hshort⟩ := h
  rw [List.length_map, ← hholds.length_eq]
  exact Nat.lt_succ_of_le hshort

theorem Remaining.side_eq {t : (b side).Table} {i : Iter b} {xs : List T} (h : Remaining R side t i xs) :
    i.side = side := by
  obtain ⟨scan, locs, es, rfl, -⟩ := h
  rfl

variable (hc : ∀ side, Contract (R side) (u side))
include hc

theorem remaining_iter (hp : Proper (R side) (u side) eqv (ts side)) :
    Remaining R side (ts side) (iter b ts side) (((R side).entries (ts side)).map Prod.fst) := by
  obtain ⟨locs, es, hscan, -, hholds, rfl, hshort⟩ := (hc side).scan hp.stores.wf
  refine ⟨(b side).scan (ts side), locs, _, ?_, rfl, hscan, hholds, hshort⟩
  rw [iter, (hc side).len_eq, (hc side).len hp.counted]

theorem lawful_iterator {t : (b side).Table} (hw : (R side).Wf t) {P : Sets b × World W T Unit → Prop}
    {Z : Panic → Prop} (hP : ∀ s, P s → s.1 side = t) : (iterator b).Lawful P Z (Remaining R side t) := by
  constructor
  · rintro _ _ ⟨ts, w⟩ ⟨scan, locs, es, rfl, rfl, hscan, hholds, hshort⟩ hs
    obtain rfl : ts side = t := hP _ hs
    change wp (Iter.next b ⟨side, scan, es.length⟩) _ _ _
    rw [Iter.next, wp_bind, wp_get]
    dsimp only
    cases locs with
    | nil =>
      obtain rfl : es = [] := List.forall₂_nil_left_iff.mp hholds
      obtain ⟨scan', hnext, hrest⟩ := (hc side).scanNext_nil hw hscan
      rw [hnext]
      exact ⟨rfl, ⟨scan', [], [], rfl, rfl, hrest, .nil, Nat.zero_le _⟩, hs⟩
    | cons loc locs =>
      cases es with
      | nil => cases hholds
      | cons e es =>
        obtain ⟨he, hholds⟩ := List.forall₂_cons.mp hholds
        obtain ⟨scan', hnext, hrest⟩ := (hc side).scanNext_cons hw hscan
        rw [hnext]
        dsimp only
        rw [wp_bind, wp_within, wp_slotEntry (hc side) he, Function.update_eq_self]
        exact ⟨rfl, ⟨scan', locs, es, rfl, rfl, hrest _ hw ((hc side).undisturbed_refl loc), hholds,
          Nat.le_of_succ_le hshort⟩, hs⟩
  · rintro _ _ ⟨scan, locs, es, rfl, rfl, -⟩
    change Bounds (es.length, some es.length) _
    rw [List.length_map]
    exact ⟨Nat.le_refl _, fun m hm => Nat.le_of_eq (Option.some.inj hm)⟩

variable (hl : ∀ side, (u side).Lawful (hash side) eqv)
include hl

theorem wp_containsOther (hs : Stores (R side.other) (u side.other) eqv (ts side.other)) {J : W → Prop}
    (hJ : (u side.other).SearchStable J) (value : T) :
    wp (within b side.other (contains (b side.other) (u side.other) value))
      (fun found s => found = (find eqv value ((R side.other).entries (ts side.other))).isSome ∧ s.1 = ts ∧
        s.2.ledger = w.ledger ∧ (J w.code → J s.2.code))
      (fun p s => (u side.other).Unwound p ∧ s.1 = ts ∧ s.2.ledger = w.ledger) (ts, w) := by
  rw [wp_within]
  refine wp_mono (wp_contains (hc _) (hl _) hs hJ value) ?_ ?_
  · rintro found ⟨t', w'⟩ ⟨hfound, ht, hledger, hcode⟩
    obtain rfl : t' = ts side.other := ht
    refine ⟨?_, Function.update_eq_self _ _, hledger, hcode⟩
    rw [Bool.eq_iff_iff, isSome_find]
    exact hfound
  · rintro p ⟨t', w'⟩ ⟨hunwound, ht, hledger⟩
    obtain rfl : t' = ts side.other := ht
    exact ⟨hunwound, Function.update_eq_self _ _, hledger⟩

theorem wp_testMembership (hs : Stores (R side.other) (u side.other) eqv (ts side.other)) {J : W → Prop}
    (hJ : (u side.other).SearchStable J) (present : Bool) (value : T) :
    wp (testMembership b u side present value)
      (fun found s => found = answer (R side.other) eqv (ts side.other) present value ∧ s.1 = ts ∧
        s.2.ledger = w.ledger ∧ (J w.code → J s.2.code))
      (fun p s => (u side.other).Unwound p ∧ s.1 = ts ∧ s.2.ledger = w.ledger) (ts, w) := by
  rw [testMembership, wp_bind]
  refine wp_mono (wp_containsOther hc hl hs hJ value) ?_ (fun _ _ => id)
  rintro found s ⟨rfl, hrest⟩
  exact ⟨rfl, hrest⟩

/-- What a filtering iterator has left: what passes of what its `Iter` has left. -/
def Passing (R : (side : Side) → Reading (b side).Table (b side).Location (b side).Vacant (b side).Scan T Unit)
    (eqv : T → T → Bool) (ts : Sets b) (side : Side) (present : Bool) (i : Iter b) (ys : List T) : Prop :=
  ∃ xs, Remaining R side (ts side) i xs ∧ ys = xs.filter (answer (R side.other) eqv (ts side.other) present)

theorem wp_nextByMembership (hp : ∀ side, Proper (R side) (u side) eqv (ts side)) {present : Bool} {i : Iter b}
    {ys : List T} (hi : Passing R eqv ts side present i ys) :
    wp (nextByMembership b u i present)
      (fun r s => r.1 = ys.head? ∧ Passing R eqv ts side present r.2 ys.tail ∧ s.1 = ts) (fun p _ => Unwound u p)
      (ts, w) := by
  obtain ⟨xs, hxs, rfl⟩ := hi
  have hfuel := hxs.fuel
  obtain rfl := hxs.side_eq
  rw [nextByMembership, wp_bind, wp_get]
  have hlawful := lawful_iterator (Z := Unwound u) hc (hp i.side).stores.wf (P := fun s => s.1 = ts)
    fun s hs => congrFun hs i.side
  refine wp_mono (hlawful.find (f := answer (R i.side.other) eqv (ts i.side.other) present) ?_ hxs rfl hfuel) ?_
    (fun _ _ => id)
  · rintro value ⟨ts', w'⟩ hts
    obtain rfl : ts' = ts := hts
    refine wp_mono (wp_testMembership hc hl (hp _).stores (User.searchStable_true _) present value) ?_ ?_
    · exact fun found s h => ⟨h.1, h.2.1⟩
    · exact fun p s h => ⟨_, h.1⟩
  · rintro r s ⟨hvalue, ⟨rest, hrest, htail⟩, hts⟩
    exact ⟨hvalue, ⟨rest, hrest, htail.symm⟩, hts⟩

theorem lawful_membership (hp : ∀ side, Proper (R side) (u side) eqv (ts side)) (side : Side) (present : Bool) :
    (membershipIterator b u present).Lawful (fun s => s.1 = ts) (Unwound u) (Passing R eqv ts side present) := by
  constructor
  · rintro i ys ⟨ts', w'⟩ hi hts
    obtain rfl : ts' = ts := hts
    exact wp_nextByMembership hc hl hp hi
  · rintro i _ ⟨xs, hxs, rfl⟩
    have hhint := (lawful_iterator (u := u) (P := fun s => s.1 = ts) (Z := fun _ => False) hc (hp side).stores.wf
      fun s hs => congrFun hs side).hint hxs
    refine ⟨Nat.zero_le _, fun m hm => ?_⟩
    exact (List.length_filter_le _ _).trans (hhint.2 m hm)

end Iterators

/-- The iterator yields each element of the set once and then nothing more; its hints bound what it has left. -/
def Enumerates (u : Side → User W T Unit) (eqv : T → T → Bool) (ts : Sets b) {I : Type}
    (it : Iterator Panic (Sets b × World W T Unit) I T) (i : I) (elements : Set T) : Prop :=
  ∃ xs, Apart eqv xs ∧ listed eqv xs = elements ∧ ∀ n w, wp (it.take n i)
    (fun r s => r.1 = xs.take n ∧ Bounds (it.sizeHint r.2) (xs.length - n) ∧ s.1 = ts) (fun p _ => Unwound u p) (ts, w)

theorem Enumerates.of_lawful {I : Type} {it : Iterator Panic (Sets b × World W T Unit) I T} {Left : I → List T → Prop}
    {i : I} {xs : List T} {elements : Set T} (h : it.Lawful (fun s => s.1 = ts) (Unwound u) Left) (hi : Left i xs)
    (hapart : Apart eqv xs) (helements : listed eqv xs = elements) : Enumerates u eqv ts it i elements := by
  refine ⟨xs, hapart, helements, fun n w => ?_⟩
  exact wp_mono (h.take n hi rfl) (fun r s h => ⟨h.1, h.2.2⟩) fun _ _ => id

def contents (R : (side : Side) → Reading (b side).Table (b side).Location (b side).Vacant (b side).Scan T Unit)
    (eqv : T → T → Bool) (ts : Sets b) (side : Side) : Set T := elements (R side) eqv (ts side)

def keys (R : (side : Side) → Reading (b side).Table (b side).Location (b side).Vacant (b side).Scan T Unit)
    (ts : Sets b) (side : Side) : List T := ((R side).entries (ts side)).map Prod.fst

section Algebra

variable (hc : ∀ side, Contract (R side) (u side)) (hl : ∀ side, (u side).Lawful (hash side) eqv)
  (hp : ∀ side, Proper (R side) (u side) eqv (ts side))

include hp in
theorem apart_keys (side : Side) : Apart eqv (keys R ts side) := (hp side).stores.distinct

include hl in
theorem listed_absent (side : Side) :
    listed eqv ((keys R ts side).filter (answer (R side.other) eqv (ts side.other) false)) =
      contents R eqv ts side \ contents R eqv ts side.other := by
  rw [listed_filter (f := answer _ _ _ _) fun x y => answer_congr (hl side).equality]
  ext x
  exact and_congr_right fun _ => answer_false

include hl in
theorem listed_present (side : Side) :
    listed eqv ((keys R ts side).filter (answer (R side.other) eqv (ts side.other) true)) =
      contents R eqv ts side ∩ contents R eqv ts side.other := by
  rw [listed_filter (f := answer _ _ _ _) fun x y => answer_congr (hl side).equality]
  ext x
  exact and_congr_right fun _ => answer_true

include hc hp in
theorem remaining_keys (side : Side) : Remaining R side (ts side) (iter b ts side) (keys R ts side) :=
  remaining_iter hc (hp side)

theorem bySize_cases (b : Side → TableBackend W T Unit) (ts : Sets b) (side : Side) :
    bySize b ts side = (side, side.other) ∨ bySize b ts side = (side.other, side) := by
  unfold bySize
  split
  · exact .inl rfl
  · exact .inr rfl

include hc hl hp

theorem enumerates_difference (side : Side) :
    Enumerates u eqv ts (differenceIterator b u) (difference b ts side)
      (contents R eqv ts side \ contents R eqv ts side.other) :=
  .of_lawful (lawful_membership hc hl hp side false) ⟨_, remaining_keys hc hp side, rfl⟩
    ((apart_keys hp side).filter _) (listed_absent hl side)

theorem passing_intersection (side : Side) : ∃ smaller ys, Passing R eqv ts smaller true (intersection b ts side) ys ∧
    Apart eqv ys ∧ listed eqv ys = contents R eqv ts side ∩ contents R eqv ts side.other := by
  have hsmaller := fun smaller => (⟨_, remaining_keys hc hp smaller, rfl⟩ :
    Passing R eqv ts smaller true (iter b ts smaller) _)
  rw [intersection]
  rcases bySize_cases b ts side with hsize | hsize
  · rw [hsize]
    exact ⟨side, _, hsmaller side, (apart_keys hp side).filter _, listed_present hl side⟩
  · rw [hsize, Set.inter_comm]
    exact ⟨side.other, _, hsmaller side.other, (apart_keys hp side.other).filter _,
      (listed_present hl side.other).trans (by rw [other_other])⟩

theorem enumerates_intersection (side : Side) :
    Enumerates u eqv ts (intersectionIterator b u) (intersection b ts side)
      (contents R eqv ts side ∩ contents R eqv ts side.other) := by
  obtain ⟨smaller, ys, hpassing, hapart, hlisted⟩ := passing_intersection hc hl hp side
  exact .of_lawful (lawful_membership hc hl hp smaller true) hpassing hapart hlisted

/-- What `larger.iter().chain(smaller.difference(larger))` yields. -/
theorem enumerates_chain (smaller : Side) :
    Enumerates u eqv ts (unionIterator b u) ⟨some (iter b ts smaller.other), some (difference b ts smaller)⟩
      (contents R eqv ts smaller.other ∪ contents R eqv ts smaller) := by
  have hiterator := lawful_iterator (u := u) (P := fun s => s.1 = ts) (Z := Unwound u) hc (hp smaller.other).stores.wf
    fun s hs => congrFun hs smaller.other
  refine .of_lawful (hiterator.chain usizeMax (lawful_membership hc hl hp smaller false))
    ⟨_, _, remaining_keys hc hp smaller.other, ⟨_, remaining_keys hc hp smaller, rfl⟩, rfl⟩ ?_ ?_
  · refine (apart_keys hp _).append ((apart_keys hp _).filter _) fun x hx hmem => ?_
    rw [listed_absent hl] at hmem
    exact hmem.2 (mem_listed_self (hl smaller).equality hx)
  · rw [listed_append, listed_absent hl]
    exact Set.union_sdiff_self

theorem enumerates_union (side : Side) :
    Enumerates u eqv ts (unionIterator b u) (union b ts side)
      (contents R eqv ts side ∪ contents R eqv ts side.other) := by
  rw [union]
  rcases bySize_cases b ts side with hsize | hsize
  · rw [hsize, Set.union_comm]
    exact enumerates_chain hc hl hp side
  · have := enumerates_chain hc hl hp side.other
    rw [other_other] at this
    rwa [hsize]

theorem enumerates_symmetricDifference (side : Side) :
    Enumerates u eqv ts (symmetricDifferenceIterator b u) (symmetricDifference b ts side)
      (symmDiff (contents R eqv ts side) (contents R eqv ts side.other)) := by
  have hother := lawful_membership hc hl hp side.other false
  refine .of_lawful ((lawful_membership hc hl hp side false).chain usizeMax hother)
    ⟨_, _, ⟨_, remaining_keys hc hp side, rfl⟩, ⟨_, remaining_keys hc hp side.other, rfl⟩, rfl⟩ ?_ ?_
  · refine ((apart_keys hp _).filter _).append ((apart_keys hp _).filter _) fun x hx hmem => ?_
    rw [listed_absent hl, other_other] at hmem
    exact hmem.2 (mem_listed_self (hl side).equality (List.mem_of_mem_filter hx))
  · rw [listed_append, listed_absent hl, listed_absent hl, other_other]
    rfl

theorem wp_isDisjoint (side : Side) :
    wp (isDisjoint b u side)
      (fun r s => (r = true ↔ contents R eqv ts side ∩ contents R eqv ts side.other = ∅) ∧ s.1 = ts)
      (fun p _ => Unwound u p) (ts, w) := by
  obtain ⟨smaller, ys, hpassing, -, hlisted⟩ := passing_intersection hc hl hp side
  rw [isDisjoint, wp_bind, wp_get, wp_bind]
  refine wp_mono ((lawful_membership hc hl hp smaller true).next hpassing rfl) ?_ (fun _ _ => id)
  rintro ⟨value, i⟩ s ⟨hvalue, -, hts⟩
  refine ⟨?_, hts⟩
  rw [← hlisted, ← head?_eq_none_iff (hl side).equality, ← hvalue]
  exact Option.isNone_iff_eq_none

theorem wp_allContained (side : Side) :
    wp (allContained b u side)
      (fun r s => (r = true ↔ contents R eqv ts side ⊆ contents R eqv ts side.other) ∧ s.1 = ts)
      (fun p _ => Unwound u p) (ts, w) := by
  have hlawful := lawful_iterator (u := u) (P := fun s => s.1 = ts) (Z := Unwound u) hc (hp side).stores.wf
    fun s hs => congrFun hs side
  have hremaining := remaining_keys hc hp side
  rw [allContained, wp_bind, wp_get]
  refine wp_mono (hlawful.all (f := fun x => (find eqv x ((R side.other).entries (ts side.other))).isSome) ?_
    hremaining rfl hremaining.fuel) ?_ (fun _ _ => id)
  · rintro value ⟨ts', w'⟩ hts
    obtain rfl : ts' = ts := hts
    refine wp_mono (wp_containsOther hc hl (hp _).stores (User.searchStable_true _) value) ?_ ?_
    · exact fun found s h => ⟨h.1, h.2.1⟩
    · exact fun p s h => ⟨_, h.1⟩
  · rintro r s ⟨rfl, hts⟩
    exact ⟨all_iff_subset (hl side).equality fun x => isSome_find, hts⟩

omit hl in
theorem len_keys (side : Side) : (b side).len (ts side) = (keys R ts side).length := by
  rw [(hc side).len_eq, (hc side).len (hp side).counted, keys, List.length_map]

theorem wp_isSubset (side : Side) :
    wp (isSubset b u side)
      (fun r s => (r = true ↔ contents R eqv ts side ⊆ contents R eqv ts side.other) ∧ s.1 = ts)
      (fun p _ => Unwound u p) (ts, w) := by
  rw [isSubset, wp_bind, wp_get]
  dsimp only
  rw [len_keys hc hp, len_keys hc hp, wp_ite]
  refine ⟨fun _ => wp_allContained hc hl hp side, fun hlonger => ⟨?_, rfl⟩⟩
  exact iff_of_false Bool.false_ne_true fun hsub => hlonger ((apart_keys hp side).length_le (hl side).equality hsub)

theorem wp_eq (side : Side) :
    wp (eq b u side)
      (fun r s => (r = true ↔ contents R eqv ts side = contents R eqv ts side.other) ∧ s.1 = ts)
      (fun p _ => Unwound u p) (ts, w) := by
  rw [eq, wp_bind, wp_get]
  dsimp only
  rw [len_keys hc hp, len_keys hc hp, wp_ite]
  refine ⟨fun hsame => ?_, fun hne => ⟨?_, rfl⟩⟩
  · refine wp_mono (wp_allContained hc hl hp side) ?_ (fun _ _ => id)
    rintro r s ⟨hr, hts⟩
    refine ⟨hr.trans ⟨fun hsub => ?_, fun heq => heq.subset⟩, hts⟩
    exact (apart_keys hp side).eq_of_subset (hl side).equality hsub hsame
  · refine iff_of_false Bool.false_ne_true fun heq => hne (Nat.le_antisymm ?_ ?_)
    · exact (apart_keys hp side).length_le (hl side).equality heq.subset
    · exact (apart_keys hp side.other).length_le (hl side).equality heq.symm.subset

end Algebra

end Opthash.HashSet
