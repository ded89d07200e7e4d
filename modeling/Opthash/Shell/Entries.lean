import Opthash.Shell.Keys

namespace Opthash.HashMap

open Exec Ledger

variable {W K V : Type} {b : TableBackend W K V} {R : Reading b.Table b.Location b.Vacant b.Scan K V}
  {u : User W K V} {κ : K ⊕ V → Nat} {t : b.Table} {w : World W K V} {key : K} {value : V}

def Searched (R : Reading b.Table b.Location b.Vacant b.Scan K V) (u : User W K V) (t : b.Table) (key : K) :
    b.Location ⊕ b.Vacant → Prop
  | .inl loc => ∃ e, R.Holds t loc e ∧ u.Answers key e.1 true
  | .inr vacant => ∃ x, u.Hashes key x ∧ R.Refuted u t key x ∧ R.Fits t vacant x

theorem wp_searchEntry (h : Contract R u) (hw : R.Wf t) (key : K) :
    wp (do
        let hash ← Exec.onSnd (u.hash key)
        b.findForEntry key hash : Step b (b.Location ⊕ b.Vacant))
      (fun r s => s.1 = t ∧ s.2.ledger = w.ledger ∧ Searched R u t key r)
      (LookupPanic u t w.ledger) (t, w) := by
  rw [wp_bind, wp_onSnd]
  refine wp_mono (User.wp_hash key w) ?_ (fun _ _ h => ⟨h.1, rfl, h.2.1⟩)
  rintro x w₁ ⟨hx, hledger, -⟩
  refine wp_mono (h.findForEntry hw key x w₁) ?_ ?_
  · rintro (loc | vacant) s ⟨ht, hl, hr⟩
    · exact ⟨ht, hl.trans hledger, hr⟩
    · exact ⟨ht, hl.trans hledger, x, hx, hr⟩
  · rintro e s ⟨he, ht, hl⟩
    exact ⟨he, ht, hl.trans hledger⟩

structure Admitted (R : Reading b.Table b.Location b.Vacant b.Scan K V) (u : User W K V) (t t' : b.Table) (query key : K)
    (value : V) : Prop where
  added : ∃ x, u.Hashes query x ∧ R.Refuted u t query x ∧ R.Added u t t' key value x

theorem wp_insertSearched (h : Contract R u) (hw : R.Wf t) {query : K} {vacant : b.Vacant} (key : K) (value : V)
    (hs : Searched R u t query (.inr vacant)) :
    wp (do
        let loc ← b.insertForVacant key value vacant
        slotEntry b loc : Step b (K × V))
      (fun e s => e = (key, value) ∧ Admitted R u t s.1 query key value ∧ s.2.ledger = w.ledger)
      (NotPlaced R u κ t key value w) (t, w) := by
  obtain ⟨x, hx, hrefuted, hfits⟩ := hs
  rw [wp_bind]
  refine wp_mono (h.insertForVacant hw hfits κ key value w) ?_ (fun _ _ => id)
  rintro loc ⟨t', w'⟩ ⟨hadded, hholds, hledger⟩
  rw [wp_slotEntry h hholds]
  exact ⟨rfl, ⟨x, hx, hrefuted, hadded⟩, hledger⟩

theorem NotPlaced.of_ledger {w₁ : World W K V} {p : Panic} {s : b.Table × World W K V} (hl : w₁.ledger = w.ledger)
    (h : NotPlaced R u κ t key value w₁ p s) : NotPlaced R u κ t key value w p s :=
  ⟨h.1, fun hne => ⟨(h.2 hne).1, dropped_of_ledger hl (h.2 hne).2⟩⟩

theorem wp_dropArguments {t' : b.Table} {w₁ : World W K V} (hw : R.Wf t) (hl : w₁.ledger = w.ledger) (ht : t' = t)
    {Q : Unit → b.Table × World W K V → Prop}
    (hQ : ∀ w', User.Dropped κ (κ (.inl key)) w w' → Q () (t', w')) :
    wp (onSnd (guarded .abort (u.dropK key) (u.dropV value)) : Step b Unit) Q (NotPlaced R u κ t key value w)
      (t', w₁) := by
  subst ht
  rw [wp_onSnd]
  refine wp_mono (User.wp_dropBoth (User.wp_dropK (κ := κ) key) (User.wp_dropV value) w₁) ?_ ?_
  · exact fun _ w' hd => hQ w' (dropped_of_ledger hl hd)
  · rintro p w' ⟨hp, hd⟩
    exact ⟨hp.blamed, fun hne => ⟨.refl hw, dropped_of_ledger hl (hd hne)⟩⟩

theorem wp_entryOrInsert (h : Contract R u) (hw : R.Wf t) (key : K) (default : V) :
    wp (entryOrInsert b u key default)
      (fun shown s =>
        (∃ e, Matched R u t key e ∧ shown = e.2 ∧ s.1 = t ∧ User.Dropped κ (weighEntry κ (key, default)) w s.2) ∨
        shown = default ∧ Admitted R u t s.1 key key default ∧ s.2.ledger = w.ledger)
      (NotPlaced R u κ t key default w) (t, w) := by
  rw [entryOrInsert, wp_bind]
  refine wp_mono (wp_owned_search (κ := κ) hw (wp_searchEntry h hw key)) ?_ (fun _ _ => id)
  rintro (loc | vacant) ⟨t', w'⟩ ⟨ht, hl, hs⟩
  · obtain rfl : t' = t := ht
    obtain ⟨e, he, hans⟩ := hs
    dsimp only
    rw [wp_bind]
    refine wp_dropArguments hw hl rfl fun w₁ hd => ?_
    rw [wp_bind, wp_onSnd]
    refine wp_mono (User.wp_dropV (κ := κ) default w₁) ?_ ?_
    · intro _ w₂ hd₂
      dsimp only
      rw [wp_bind, wp_slotEntry h he]
      exact .inl ⟨e, matched_of_holds h hw he hans, rfl, rfl, Gains.trans hd hd₂⟩
    · rintro p w₂ ⟨hp, hd₂⟩
      exact ⟨hp.blamed, fun _ => ⟨.refl hw, Gains.trans hd hd₂⟩⟩
  · obtain rfl : t' = t := ht
    have hinsert := wp_insertSearched (κ := κ) (w := w') h hw key default hs
    rw [wp_bind] at hinsert
    dsimp only
    rw [wp_bind]
    refine wp_mono hinsert ?_ (fun _ _ => NotPlaced.of_ledger hl)
    intro loc s hloc
    rw [wp_bind]
    refine wp_mono hloc ?_ (fun _ _ => NotPlaced.of_ledger hl)
    rintro e s ⟨rfl, hadmitted, hl'⟩
    exact .inr ⟨rfl, hadmitted, hl'.trans hl⟩

theorem wp_tryInsert (h : Contract R u) (hw : R.Wf t) (key : K) (value : V) :
    wp (tryInsert b u key value)
      (fun r s => match r with
        | .error e => Matched R u t key e ∧ s.1 = t ∧ User.Dropped κ (κ (.inl key)) w s.2
        | .ok shown => shown = value ∧ Admitted R u t s.1 key key value ∧ s.2.ledger = w.ledger)
      (NotPlaced R u κ t key value w) (t, w) := by
  rw [tryInsert, wp_bind]
  refine wp_mono (wp_owned_search (κ := κ) hw (wp_searchEntry h hw key)) ?_ (fun _ _ => id)
  rintro (loc | vacant) ⟨t', w'⟩ ⟨ht, hl, hs⟩
  · obtain rfl : t' = t := ht
    obtain ⟨e, he, hans⟩ := hs
    dsimp only
    rw [wp_bind]
    refine wp_dropArguments hw hl rfl fun w₁ hd => ?_
    rw [wp_bind, wp_slotEntry h he]
    exact ⟨matched_of_holds h hw he hans, rfl, hd⟩
  · obtain rfl : t' = t := ht
    have hinsert := wp_insertSearched (κ := κ) (w := w') h hw key value hs
    rw [wp_bind] at hinsert
    dsimp only
    rw [wp_bind]
    refine wp_mono hinsert ?_ (fun _ _ => NotPlaced.of_ledger hl)
    intro loc s hloc
    rw [wp_bind]
    refine wp_mono hloc ?_ (fun _ _ => NotPlaced.of_ledger hl)
    rintro e s ⟨rfl, hadmitted, hl'⟩
    exact ⟨rfl, hadmitted, hl'.trans hl⟩

/-- What `get_or_insert_with` leaves when it unwinds: the entries as they were; what it owned drops. -/
def MakePanic (R : Reading b.Table b.Location b.Vacant b.Scan K V) (u : User W K V) (κ : K ⊕ V → Nat) (t : b.Table)
    (value : V) (make : Option K) (w : World W K V) (p : Panic) (s : b.Table × World W K V) : Prop :=
  p.Blamed (¬u.Calm ∨ make = none) ∧ (p ≠ .abort → R.Stretched u t s.1 ∧
    (User.Dropped κ (κ (.inr value)) w s.2 ∨ ∃ made, make = some made ∧ User.Dropped κ (weighEntry κ (made, value)) w s.2))

theorem wp_searchOrMake (h : Contract R u) (hw : R.Wf t) (key : K) (make : Option K) :
    wp (searchOrMake b u key make)
      (fun r s => s.1 = t ∧ s.2.ledger = w.ledger ∧ match r with
        | .inl loc => ∃ e, R.Holds t loc e ∧ u.Answers key e.1 true
        | .inr (made, vacant) => make = some made ∧ Searched R u t key (.inr vacant))
      (fun p s => (u.Unwound p ∨ p = .user ∧ make = none) ∧ s.1 = t ∧ s.2.ledger = w.ledger) (t, w) := by
  have hsearch := wp_searchEntry (w := w) h hw key
  rw [wp_bind] at hsearch
  rw [searchOrMake, wp_bind]
  refine wp_mono hsearch ?_ (fun _ _ h => ⟨.inl h.1, h.2⟩)
  intro x s hx
  rw [wp_bind]
  refine wp_mono hx ?_ (fun _ _ h => ⟨.inl h.1, h.2⟩)
  rintro (loc | vacant) s ⟨ht, hl, hs⟩
  · exact ⟨ht, hl, hs⟩
  · dsimp only
    rw [wp_bind, wp_expect]
    exact ⟨fun made hmade => ⟨ht, hl, hmade, hs⟩, fun hnone => ⟨.inr ⟨rfl, hnone⟩, ht, hl⟩⟩

theorem wp_getOrInsertWith (h : Contract R u) (hw : R.Wf t) (key : K) (value : V) (make : Option K) :
    wp (getOrInsertWith b u key value make)
      (fun shown s =>
        (∃ e, Matched R u t key e ∧ shown = e.1 ∧ s.1 = t ∧ User.Dropped κ (κ (.inr value)) w s.2) ∨
        make = some shown ∧ Admitted R u t s.1 key shown value ∧ s.2.ledger = w.ledger)
      (MakePanic R u κ t value make w) (t, w) := by
  rw [getOrInsertWith, wp_bind]
  have habort : ¬u.Calm → ∀ s, MakePanic R u κ t value make w .abort s :=
    fun hu s => ⟨.abort (.inl hu), fun hne => absurd rfl hne⟩
  refine User.wp_cleanup habort (wp_mono (wp_searchOrMake h hw key make) ?_ ?_)
  · rintro (loc | ⟨made, vacant⟩) ⟨t', w'⟩ ⟨ht, hl, hs⟩
    · obtain rfl : t' = t := ht
      obtain ⟨e, he, hans⟩ := hs
      dsimp only
      rw [wp_bind, wp_onSnd]
      refine wp_mono (User.wp_dropV (κ := κ) value w') ?_ ?_
      · intro _ w₁ hd
        dsimp only
        rw [wp_bind, wp_slotEntry h he]
        exact .inl ⟨e, matched_of_holds h hw he hans, rfl, rfl, dropped_of_ledger hl hd⟩
      · rintro p w₁ ⟨hp, hd⟩
        exact ⟨hp.blamed.mono .inl, fun _ => ⟨.refl hw, .inl (dropped_of_ledger hl hd)⟩⟩
    · obtain rfl : t' = t := ht
      obtain ⟨hmade, hs⟩ := hs
      have hinsert := wp_insertSearched (κ := κ) (w := w') h hw made value hs
      have hpanic : ∀ p s, NotPlaced R u κ t' made value w' p s → MakePanic R u κ t' value make w p s :=
        fun p s hn => ⟨hn.1.mono .inl, fun hne => ⟨(hn.2 hne).1, .inr ⟨made, hmade, dropped_of_ledger hl (hn.2 hne).2⟩⟩⟩
      rw [wp_bind] at hinsert
      dsimp only
      rw [wp_bind]
      refine wp_mono hinsert ?_ hpanic
      intro loc s hloc
      rw [wp_bind]
      refine wp_mono hloc ?_ hpanic
      rintro e s ⟨rfl, hadmitted, hl'⟩
      exact .inr ⟨hmade, hadmitted, hl'.trans hl⟩
  · rintro p ⟨t', w'⟩ ⟨hp, ht, hl⟩
    obtain rfl : t' = t := ht
    have hne : p ≠ .abort := by
      rcases hp with hp | ⟨rfl, -⟩
      · exact hp.ne_abort
      · exact Panic.noConfusion
    refine ⟨fun he => absurd he hne, fun _ => ?_⟩
    rw [wp_onSnd]
    refine wp_mono (User.wp_dropV (κ := κ) value w') ?_ (fun _ _ h => h.1.2)
    intro _ w₁ hd
    refine ⟨?_, fun _ => ⟨.refl hw, .inl (dropped_of_ledger hl hd)⟩⟩
    rcases hp with hp | ⟨rfl, hnone⟩
    · exact hp.blamed.mono .inl
    · exact .user (.inr hnone)

end Opthash.HashMap
