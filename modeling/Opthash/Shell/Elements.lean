import Opthash.Lib.FiniteSet
import Opthash.Set
import Opthash.Shell.Refinement

namespace Opthash

open Exec FiniteMap FiniteSet

structure User.SearchStable {W K V : Type} (u : User W K V) (J : W → Prop) : Prop where
  hashed : ∀ k x c c', u.hashOne k c = (.ok x, c') → J c → J c'
  compared : u.EqStable J

theorem User.searchStable_true {W K V : Type} (u : User W K V) : u.SearchStable fun _ => True :=
  ⟨fun _ _ _ _ _ _ => trivial, fun _ _ _ _ => trivial⟩

namespace HashSet

open HashMap

variable {W T : Type} {b : TableBackend W T Unit} {R : Reading b.Table b.Location b.Vacant b.Scan T Unit}
  {u : User W T Unit} {hash : T → UInt64} {eqv : T → T → Bool} {copyKey : T → T} {copyValue : Unit → Unit}
  {t t' : b.Table} {w : World W T Unit} {value x : T}

def elements (R : Reading b.Table b.Location b.Vacant b.Scan T Unit) (eqv : T → T → Bool) (t : b.Table) : Set T :=
  listed eqv ((R.entries t).map Prod.fst)

/-- Searches find what is stored, and the counters count it. -/
structure Proper (R : Reading b.Table b.Location b.Vacant b.Scan T Unit) (u : User W T Unit) (eqv : T → T → Bool)
    (t : b.Table) : Prop where
  stores : Stores R u eqv t
  counted : R.Counted t

theorem mem_elements : x ∈ elements R eqv t ↔ ∃ e ∈ R.entries t, eqv x e.1 = true := by
  simp [elements, mem_listed]

theorem not_mem_elements : x ∉ elements R eqv t ↔ find eqv x (R.entries t) = none := by
  simp only [mem_elements, find_eq_none, not_exists, not_and, Bool.not_eq_true]

theorem mem_elements_of_find {e : T × Unit} (h : find eqv x (R.entries t) = some e) : x ∈ elements R eqv t :=
  mem_elements.mpr ⟨e, List.mem_of_find?_eq_some h, List.find?_some (p := fun e : T × Unit => eqv x e.1) h⟩

theorem Proper.rearranged (hl : u.Lawful hash eqv) (hp : Proper R u eqv t) (h : R.Rearranged u t t') :
    Proper R u eqv t' :=
  ⟨⟨h.keeps.wf, h.keeps.sound hp.stores.sound, hp.stores.distinct.perm hl.equality h.entries⟩,
    h.keeps.counted hp.counted⟩

theorem Proper.added (hl : u.Lawful hash eqv) (hp : Proper R u eqv t) {h : UInt64} (hadded : R.Added u t t' value () h)
    (hhash : u.Hashes value h) (habsent : value ∉ elements R eqv t) : Proper R u eqv t' := by
  refine ⟨⟨hadded.wf, hadded.sound hp.stores.sound hhash, ?_⟩, hadded.counted hp.counted⟩
  exact (distinct_put_absent hp.stores.distinct (not_mem_elements.mp habsent)).perm hl.equality hadded.entries

theorem elements_added {h : UInt64} (hadded : R.Added u t t' value () h) :
    x ∈ elements R eqv t' ↔ eqv x value = true ∨ x ∈ elements R eqv t := by
  rw [elements, listed_perm (hadded.entries.map Prod.fst), List.map_cons, mem_listed_cons]
  rfl

theorem Proper.removed (hl : u.Lawful hash eqv) (hp : Proper R u eqv t) {e : T × Unit} (h : Removed R u t t' value e) :
    Proper R u eqv t' := by
  refine ⟨⟨h.steady.wf, h.steady.sound hp.stores.sound, ?_⟩, h.steady.counted hp.counted⟩
  exact (distinct_cons.mp (hp.stores.distinct.perm hl.equality h.entries.symm)).2

theorem elements_removed (hl : u.Lawful hash eqv) (hp : Proper R u eqv t) {e : T × Unit} (h : Removed R u t t' value e) :
    x ∈ elements R eqv t' ↔ x ∈ elements R eqv t ∧ eqv x value = false := by
  have hsame : eqv value e.1 = true := (hl.answers _ _ _ h.answers).symm
  have hothers := others_ne hl.equality hp.stores.distinct h.entries hsame
  have hsplit : x ∈ elements R eqv t ↔ eqv x e.1 = true ∨ x ∈ elements R eqv t' := by
    rw [elements, listed_perm (h.entries.map Prod.fst), List.map_cons, mem_listed_cons]
    rfl
  rw [hsplit]
  constructor
  · intro hx
    refine ⟨.inr hx, ?_⟩
    obtain ⟨e', he', hxe⟩ := mem_elements.mp hx
    by_contra hvalue
    have := hl.equality.trans _ _ _ (hl.equality.symm _ _ (by simpa using hvalue)) hxe
    rw [hothers e' he'] at this
    cases this
  · rintro ⟨hx | hx, hvalue⟩
    · have := hl.equality.trans _ _ _ hx (hl.equality.symm _ _ hsame)
      rw [hvalue] at this
      cases this
    · exact hx

section Methods

variable (hc : Contract R u) (hl : u.Lawful hash eqv)
include hc hl

omit hc in
theorem mem_of_matched {e : T × Unit} (hs : Stores R u eqv t) (h : Matched R u t value e) : value ∈ elements R eqv t :=
  mem_elements_of_find (h.find hl hs)

theorem wp_contains (hs : Stores R u eqv t) {J : W → Prop} (hJ : u.SearchStable J) (value : T) :
    wp (contains b u value)
      (fun found s => (found = true ↔ value ∈ elements R eqv t) ∧ s.1 = t ∧ s.2.ledger = w.ledger ∧
        (J w.code → J s.2.code))
      (LookupPanic u t w.ledger) (t, w) := by
  rw [contains, containsKey, wp_bind]
  refine wp_mono (wp_findLocation hc (J := fun c => J w.code → J c) ?_ hs.wf value ?_) ?_ (fun _ _ => id)
  · exact fun q k c h hj => hJ.compared q k c (h hj)
  · exact fun x code hrun => hJ.hashed value x w.code code hrun
  · rintro (_ | loc) s ⟨ht, hledger, hcode, hlocated⟩
    · have habsent := not_mem_elements.mpr (Absent.find hc hl hs hlocated)
      exact ⟨iff_of_false Bool.false_ne_true habsent, ht, hledger, hcode⟩
    · obtain ⟨e, he, hans⟩ := hlocated
      have hmem := mem_of_matched hl hs (matched_of_holds hc hs.wf he hans)
      exact ⟨iff_of_true rfl hmem, ht, hledger, hcode⟩

theorem wp_remove (hp : Proper R u eqv t) (value : T) :
    wp (remove b u value)
      (fun removed s => (removed = true ↔ value ∈ elements R eqv t) ∧ Proper R u eqv s.1 ∧
        ∀ x, x ∈ elements R eqv s.1 ↔ x ∈ elements R eqv t ∧ eqv x value = false)
      (fun p _ => p.Blamed (¬u.Calm)) (t, w) := by
  rw [remove, wp_bind]
  refine wp_mono (HashMap.wp_remove (κ := fun _ => 0) hc (J := fun _ => True) (fun _ _ _ _ => trivial) hp.stores.wf value
    fun _ _ _ => trivial) ?_ ?_
  · rintro (_ | v) ⟨t', w'⟩ ⟨hremoved, hmiss⟩
    · obtain ⟨ht, -, habsent⟩ := hmiss rfl
      obtain rfl : t' = t := ht
      have hnot := not_mem_elements.mpr (habsent.find hc hl hp.stores)
      refine ⟨iff_of_false Bool.false_ne_true hnot, hp, fun x => ⟨fun hx => ⟨hx, ?_⟩, fun hx => hx.1⟩⟩
      by_contra hvalue
      exact hnot ((mem_listed_congr hl.equality (by simpa using hvalue)).mp hx)
    · obtain ⟨k, hremoved, -⟩ := hremoved v rfl
      have hmem : value ∈ elements R eqv t :=
        mem_elements.mpr ⟨(k, v), hremoved.entries.mem_iff.mpr (List.mem_cons_self ..),
          (hl.answers _ _ _ hremoved.answers).symm⟩
      exact ⟨iff_of_true rfl hmem, hp.removed hl hremoved, fun x => elements_removed hl hp hremoved⟩
  · rintro p s (hpanic | hburst)
    · exact hpanic.1
    · exact hburst.1.blamed

theorem wp_insert_absent (hp : Proper R u eqv t) (habsent : value ∉ elements R eqv t) :
    wp (insert b u value)
      (fun _ s => Proper R u eqv s.1 ∧ ∀ x, x ∈ elements R eqv s.1 ↔ eqv x value = true ∨ x ∈ elements R eqv t)
      (fun p _ => p.Blamed (¬u.Calm)) (t, w) := by
  rw [insert, wp_bind]
  refine wp_mono (HashMap.wp_insert (κ := fun _ => 0) hc hp.stores.wf value ()) ?_ (fun _ _ h => h.1)
  rintro (_ | old) s ⟨hreplaced, hadded⟩
  · obtain ⟨h, hhash, -, hadded, -⟩ := hadded rfl
    exact ⟨hp.added hl hadded hhash habsent, fun x => elements_added hadded⟩
  · obtain ⟨-, k, rest, hans, hbefore, -⟩ := (hreplaced old rfl).1
    have hmatched : Matched R u t value (k, old) := ⟨hbefore.mem_iff.mpr (List.mem_cons_self ..), hans⟩
    exact absurd (mem_of_matched hl hp.stores hmatched) habsent

omit hl in
theorem wp_searchOrClone (hcopy : u.Copying eqv copyKey copyValue) (hw : R.Wf t) (value : T) :
    wp (searchOrClone b u value)
      (fun r s => s.1 = t ∧ match r with
        | .inl loc => ∃ e, R.Holds t loc e ∧ u.Answers value e.1 true
        | .inr (made, vacant) => made = copyKey value ∧ Searched R u t value (.inr vacant))
      (fun p s => u.Unwound p ∧ s.1 = t) (t, w) := by
  have hsearch := wp_searchEntry (w := w) hc hw value
  rw [wp_bind] at hsearch
  rw [searchOrClone, wp_bind]
  refine wp_mono hsearch ?_ (fun _ _ h => ⟨h.1, h.2.1⟩)
  intro h s hs
  rw [wp_bind]
  refine wp_mono hs ?_ (fun _ _ h => ⟨h.1, h.2.1⟩)
  rintro (loc | vacant) s ⟨ht, -, hs⟩
  · exact ⟨ht, hs⟩
  · dsimp only
    rw [wp_bind, wp_onSnd]
    refine wp_mono (User.wp_cloneK (κ := fun _ => 0) value s.2) ?_ (fun _ _ h => ⟨h.1, ht⟩)
    exact fun made w' hmade => ⟨ht, hcopy.keys _ _ hmade.1, hs⟩

theorem wp_getOrInsertClone (hcopy : u.Copying eqv copyKey copyValue) (hp : Proper R u eqv t) (value : T) :
    wp (getOrInsertClone b u value)
      (fun _ s => Proper R u eqv s.1 ∧ ∀ x, x ∈ elements R eqv s.1 ↔ eqv x value = true ∨ x ∈ elements R eqv t)
      (fun p s => p.Blamed (¬u.Calm) ∧ (p ≠ .abort → Proper R u eqv s.1)) (t, w) := by
  have habort : ¬u.Calm → ∀ s : b.Table × World W T Unit,
      Panic.Blamed (¬u.Calm) .abort ∧ (Panic.abort ≠ .abort → Proper R u eqv s.1) :=
    fun hu _ => ⟨.abort hu, fun hne => absurd rfl hne⟩
  rw [getOrInsertClone, wp_bind]
  refine User.wp_cleanup habort (wp_mono (wp_searchOrClone hc hcopy hp.stores.wf value) ?_ ?_)
  · rintro (loc | ⟨made, vacant⟩) ⟨t', w'⟩ ⟨ht, hs⟩
    · obtain rfl : t' = t := ht
      obtain ⟨e, he, hans⟩ := hs
      dsimp only
      rw [wp_bind, wp_onSnd]
      refine wp_mono (User.wp_dropV (κ := fun _ => 0) () w') ?_ (fun _ _ h => ⟨h.1.blamed, fun _ => hp⟩)
      intro _ w₁ _
      dsimp only
      rw [wp_bind, wp_slotEntry hc he]
      have hmem := mem_of_matched hl hp.stores (matched_of_holds hc hp.stores.wf he hans)
      refine ⟨hp, fun x => ⟨.inr, fun hx => hx.elim (fun hx => ?_) id⟩⟩
      exact (mem_listed_congr hl.equality hx).mpr hmem
    · obtain rfl : t' = t := ht
      obtain ⟨rfl, hs⟩ := hs
      have hsame := hcopy.same value
      have hinsert := wp_insertSearched (κ := fun _ => 0) (w := w') hc hp.stores.wf (copyKey value) () hs
      have hpanic : ∀ p s, NotPlaced R u (fun _ => 0) t' (copyKey value) () w' p s →
          p.Blamed (¬u.Calm) ∧ (p ≠ .abort → Proper R u eqv s.1) :=
        fun p s hn => ⟨hn.1, fun hne => hp.rearranged hl (hn.2 hne).1.toRearranged⟩
      rw [wp_bind] at hinsert
      dsimp only
      rw [wp_bind]
      refine wp_mono hinsert ?_ hpanic
      intro loc s hloc
      rw [wp_bind]
      refine wp_mono hloc ?_ hpanic
      rintro _ s ⟨-, ⟨h, hhash, hrefuted, hadded⟩, -⟩
      have hvalue := not_mem_elements.mpr (Absent.find hc hl hp.stores ⟨h, hhash, hrefuted⟩)
      have habsent : copyKey value ∉ elements R eqv t' :=
        fun hmem => hvalue ((mem_listed_congr hl.equality hsame).mpr hmem)
      have hcopied : u.Hashes (copyKey value) h := by
        rw [hl.hashes] at hhash ⊢
        exact hhash.trans (hl.congr _ _ hsame)
      refine ⟨hp.added hl hadded hcopied habsent, fun x => (elements_added hadded).trans (or_congr_left ?_)⟩
      exact ⟨fun hx => hl.equality.trans _ _ _ hx (hl.equality.symm _ _ hsame), fun hx => hl.equality.trans _ _ _ hx hsame⟩
  · rintro p ⟨t', w'⟩ ⟨hunwound, ht⟩
    obtain rfl : t' = t := ht
    refine ⟨fun he => absurd he hunwound.ne_abort, fun _ => ?_⟩
    rw [wp_onSnd]
    refine wp_mono (User.wp_dropV (κ := fun _ => 0) () w') ?_ (fun _ _ h => h.1.2)
    exact fun _ _ _ => ⟨hunwound.blamed, fun _ => hp⟩

end Methods

end HashSet

end Opthash
