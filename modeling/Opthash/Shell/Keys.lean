import Opthash.Contract

namespace Opthash.HashMap

open Exec Ledger

variable {W K V : Type} {b : TableBackend W K V} {R : Reading b.Table b.Location b.Vacant b.Scan K V}
  {u : User W K V} {κ : K ⊕ V → Nat} {t : b.Table} {w : World W K V} {key : K} {value : V}

theorem wp_slotEntry (h : Contract R u) {loc : b.Location} {e : K × V} (he : R.Holds t loc e)
    {Q : K × V → b.Table × World W K V → Prop} {Z : Panic → b.Table × World W K V → Prop} :
    wp (slotEntry b loc) Q Z (t, w) ↔ Q e (t, w) := by
  simp only [slotEntry, wp_bind, wp_get, h.slotRef he]
  exact Iff.rfl

/-- What a lookup reports of a table: an entry whose key answered yes, or no such entry. -/
def Located (R : Reading b.Table b.Location b.Vacant b.Scan K V) (u : User W K V) (t : b.Table) (key : K) :
    Option b.Location → Prop
  | some loc => ∃ e, R.Holds t loc e ∧ u.Answers key e.1 true
  | none => ∃ x, u.Hashes key x ∧ R.Refuted u t key x

theorem wp_findLocation (h : Contract R u) {J : W → Prop} (hJ : u.EqStable J) (hw : R.Wf t) (key : K)
    (hcode : ∀ x code, u.hashOne key w.code = (.ok x, code) → J code) :
    wp (findLocation b u key)
      (fun r s => s.1 = t ∧ s.2.ledger = w.ledger ∧ J s.2.code ∧ Located R u t key r)
      (LookupPanic u t w.ledger) (t, w) := by
  rw [findLocation, wp_bind, wp_onSnd]
  refine wp_mono (User.wp_hash key w) ?_ (fun _ _ h => ⟨h.1, rfl, h.2.1⟩)
  rintro x w₁ ⟨hx, hledger, hrun⟩
  refine wp_mono (h.find J hJ hw key x w₁ (hcode x w₁.code hrun)) ?_ ?_
  · rintro r s ⟨ht, hl, hj, hr⟩
    refine ⟨ht, hl.trans hledger, hj, ?_⟩
    cases r with
    | some loc => exact hr
    | none => exact ⟨x, hx, hr⟩
  · rintro e s ⟨he, ht, hl⟩
    exact ⟨he, ht, hl.trans hledger⟩

theorem wp_findLocation_any (h : Contract R u) (hw : R.Wf t) (key : K) :
    wp (findLocation b u key)
      (fun r s => s.1 = t ∧ s.2.ledger = w.ledger ∧ Located R u t key r)
      (LookupPanic u t w.ledger) (t, w) := by
  refine wp_mono (wp_findLocation h (J := fun _ => True) (fun _ _ _ _ => trivial) hw key fun _ _ _ => trivial) ?_
    (fun _ _ => id)
  exact fun r s ⟨ht, hl, _, hr⟩ => ⟨ht, hl, hr⟩

def Matched (R : Reading b.Table b.Location b.Vacant b.Scan K V) (u : User W K V) (t : b.Table) (key : K)
    (e : K × V) : Prop := e ∈ R.entries t ∧ u.Answers key e.1 true

theorem matched_of_holds (h : Contract R u) (hw : R.Wf t) {loc : b.Location} {e : K × V} (he : R.Holds t loc e)
    (hans : u.Answers key e.1 true) : Matched R u t key e := ⟨(h.mem_entries hw).mpr ⟨loc, he⟩, hans⟩

def Absent (R : Reading b.Table b.Location b.Vacant b.Scan K V) (u : User W K V) (t : b.Table) (key : K) : Prop :=
  ∃ x, u.Hashes key x ∧ R.Refuted u t key x

theorem wp_getKeyValue (h : Contract R u) (hw : R.Wf t) (key : K) :
    wp (getKeyValue b u key)
      (fun r s => s.1 = t ∧ s.2.ledger = w.ledger ∧
        (∀ e, r = some e → Matched R u t key e) ∧ (r = none → Absent R u t key))
      (LookupPanic u t w.ledger) (t, w) := by
  rw [getKeyValue, wp_bind]
  refine wp_mono (wp_findLocation_any h hw key) ?_ (fun _ _ => id)
  rintro (_ | loc) ⟨t', w'⟩ ⟨ht, hl, hr⟩
  · exact ⟨ht, hl, nofun, fun _ => hr⟩
  · obtain rfl : t' = t := ht
    obtain ⟨e, he, hans⟩ := hr
    dsimp only
    rw [wp_map, wp_slotEntry h he]
    refine ⟨rfl, hl, fun e' h' => ?_, nofun⟩
    cases h'
    exact matched_of_holds h hw he hans

theorem wp_getValue (h : Contract R u) (hw : R.Wf t) (key : K) :
    wp (get b u key)
      (fun r s => s.1 = t ∧ s.2.ledger = w.ledger ∧
        (∀ v, r = some v → ∃ e, Matched R u t key e ∧ e.2 = v) ∧ (r = none → Absent R u t key))
      (LookupPanic u t w.ledger) (t, w) := by
  rw [get, wp_bind]
  refine wp_mono (wp_getKeyValue h hw key) ?_ (fun _ _ => id)
  rintro (_ | e) s ⟨ht, hl, hfound, hmiss⟩
  · exact ⟨ht, hl, nofun, fun _ => hmiss rfl⟩
  · refine ⟨ht, hl, fun v hv => ?_, nofun⟩
    cases hv
    exact ⟨e, hfound e rfl, rfl⟩

theorem wp_containsKey (h : Contract R u) (hw : R.Wf t) (key : K) :
    wp (containsKey b u key)
      (fun r s => s.1 = t ∧ s.2.ledger = w.ledger ∧
        (r = true → ∃ e, Matched R u t key e) ∧ (r = false → Absent R u t key))
      (LookupPanic u t w.ledger) (t, w) := by
  rw [containsKey, wp_bind]
  refine wp_mono (wp_findLocation_any h hw key) ?_ (fun _ _ => id)
  rintro (_ | loc) s ⟨ht, hl, hr⟩
  · exact ⟨ht, hl, nofun, fun _ => hr⟩
  · obtain ⟨e, he, hans⟩ := hr
    exact ⟨ht, hl, fun _ => ⟨e, matched_of_holds h hw he hans⟩, nofun⟩

structure Mutated (R : Reading b.Table b.Location b.Vacant b.Scan K V) (u : User W K V) (t t' : b.Table) (key : K)
    (old new : V) : Prop where
  steady : R.Steady u t t'
  entries : ∃ k rest, u.Answers key k true ∧ (R.entries t).Perm ((k, old) :: rest) ∧
    (R.entries t').Perm ((k, new) :: rest)

theorem wp_getMut (h : Contract R u) (hw : R.Wf t) (key : K) (f : V → V) :
    wp (getMut b u key f)
      (fun r s => s.2.ledger = w.ledger ∧ (∀ old, r = some old → Mutated R u t s.1 key old (f old)) ∧
        (r = none → s.1 = t ∧ Absent R u t key))
      (LookupPanic u t w.ledger) (t, w) := by
  rw [getMut, wp_bind]
  refine wp_mono (wp_findLocation_any h hw key) ?_ (fun _ _ => id)
  rintro (_ | loc) ⟨t', w'⟩ ⟨ht, hl, hr⟩
  · exact ⟨hl, nofun, fun _ => ⟨ht, hr⟩⟩
  · obtain rfl : t' = t := ht
    obtain ⟨e, he, hans⟩ := hr
    dsimp only
    rw [wp_bind, wp_slotEntry h he, wp_bind, wp_modify]
    obtain ⟨hsteady, ⟨rest, hbefore, hafter⟩, -⟩ := h.writeValue (f e.2) hw he
    refine ⟨hl, fun old hold => ?_, nofun⟩
    cases hold
    exact ⟨hsteady, e.1, rest, hans, hbefore, hafter⟩

/-- How a removal unwinds once it took the entry out: only a refresh the hasher interrupts is unsound. -/
structure Unfinished (R : Reading b.Table b.Location b.Vacant b.Scan K V) (u : User W K V) (t t' : b.Table)
    (e : K × V) (code : W) (refreshes : Prop) : Prop where
  entries : (R.entries t).Perm (e :: R.entries t')
  settling : ∃ t₁, R.Keeps u t t₁ ∧ R.capacity t₁ = R.capacity t ∧ (R.entries t).Perm (e :: R.entries t₁) ∧
    R.Unsettled u t₁ t' code refreshes

/-- What a removal leaves when it unwinds: the table as it was, or without the entry, which drops. -/
def RemovePanic (R : Reading b.Table b.Location b.Vacant b.Scan K V) (u : User W K V) (κ : K ⊕ V → Nat) (t : b.Table)
    (w : World W K V) (J : W → Prop) (key : K) (p : Panic) (s : b.Table × World W K V) : Prop :=
  p.Blamed (¬u.Calm) ∧ (p ≠ .abort → s.1 = t ∧ s.2.ledger = w.ledger ∨
    ∃ loc e code, R.Holds t loc e ∧ u.Answers key e.1 true ∧ J code ∧
      Unfinished R u t s.1 e code (R.RefreshesAfter t loc) ∧ User.Dropped κ (weighEntry κ e) w s.2)

structure Removed (R : Reading b.Table b.Location b.Vacant b.Scan K V) (u : User W K V) (t t' : b.Table) (key : K)
    (e : K × V) : Prop where
  steady : R.Steady u t t'
  entries : (R.entries t).Perm (e :: R.entries t')
  answers : u.Answers key e.1 true

theorem wp_removeEntry (h : Contract R u) {J : W → Prop} (hJ : u.EqStable J) (hw : R.Wf t) (key : K)
    (hcode : ∀ x code, u.hashOne key w.code = (.ok x, code) → J code) :
    wp (removeEntry b u key)
      (fun r s => s.2.ledger = w.ledger ∧ (∀ e, r = some e → Removed R u t s.1 key e) ∧
        (r = none → s.1 = t ∧ Absent R u t key))
      (RemovePanic R u κ t w J key) (t, w) := by
  rw [removeEntry, wp_bind]
  refine wp_mono (wp_findLocation h hJ hw key hcode) ?_ (fun p s h => ⟨h.1.blamed, fun _ => .inl h.2⟩)
  rintro (_ | loc) ⟨t', w'⟩ ⟨ht, hl, hj, hr⟩
  · exact ⟨hl, nofun, fun _ => ⟨ht, hr⟩⟩
  · obtain rfl : t' = t := ht
    obtain ⟨e, he, hans⟩ := hr
    dsimp only at hl hj ⊢
    rw [wp_map]
    refine wp_mono (h.remove hw he κ w') ?_ ?_
    · rintro e' s ⟨rfl, hsteady, hperm, hl'⟩
      refine ⟨hl'.trans hl, fun e₁ he₁ => ?_, nofun⟩
      cases he₁
      exact ⟨hsteady, hperm, hans⟩
    · rintro p s ⟨hp, hrest⟩
      refine ⟨hp, fun hne => .inr ?_⟩
      obtain ⟨hperm, hsettling, hdropped⟩ := hrest hne
      refine ⟨loc, e, w'.code, he, hans, hj, ⟨hperm, hsettling⟩, ?_⟩
      have := hdropped
      unfold User.Dropped at this ⊢
      rwa [hl] at this

theorem wp_remove (h : Contract R u) {J : W → Prop} (hJ : u.EqStable J) (hw : R.Wf t) (key : K)
    (hcode : ∀ x code, u.hashOne key w.code = (.ok x, code) → J code) :
    wp (remove b u key)
      (fun r s => (∀ v, r = some v → ∃ k, Removed R u t s.1 key (k, v) ∧ User.Dropped κ (κ (.inl k)) w s.2) ∧
        (r = none → s.1 = t ∧ s.2.ledger = w.ledger ∧ Absent R u t key))
      (fun p s => RemovePanic R u κ t w J key p s ∨ User.Burst u p ∧ (p ≠ .abort →
        ∃ e, Removed R u t s.1 key e ∧ User.Dropped κ (weighEntry κ e) w s.2)) (t, w) := by
  rw [remove, wp_bind]
  refine wp_mono (wp_removeEntry (κ := κ) h hJ hw key hcode) ?_ (fun p s h => .inl h)
  rintro (_ | e) s ⟨hl, hremoved, hmiss⟩
  · exact ⟨nofun, fun _ => ⟨(hmiss rfl).1, hl, (hmiss rfl).2⟩⟩
  · have hremoved := hremoved e rfl
    dsimp only
    rw [wp_bind, wp_onSnd]
    have hdrop : ∀ n w', User.Dropped κ n s.2 w' → User.Dropped κ n w w' := by
      intro n w' hd
      unfold User.Dropped at hd ⊢
      rwa [hl] at hd
    refine wp_mono (User.wp_dropBoth (User.wp_dropK (κ := κ) e.1) (User.wp_dropV e.2) s.2) ?_ ?_
    · intro _ w' hd
      refine ⟨fun v hv => ?_, nofun⟩
      cases hv
      exact ⟨e.1, hremoved, hdrop _ w' hd⟩
    · rintro p w' ⟨hp, hd⟩
      exact .inr ⟨hp, fun hne => ⟨e, hremoved, hdrop _ w' (hd hne)⟩⟩

theorem dropped_of_ledger {n : Nat} {w w₁ w' : World W K V} (hl : w₁.ledger = w.ledger) (h : User.Dropped κ n w₁ w') :
    User.Dropped κ n w w' := by
  unfold User.Dropped at h ⊢
  rwa [hl] at h

theorem wp_insert (h : Contract R u) (hw : R.Wf t) (key : K) (value : V) :
    wp (insert b u key value)
      (fun r s => (∀ old, r = some old → R.Replaced u t s.1 key value old ∧ User.Dropped κ (κ (.inl key)) w s.2) ∧
        (r = none → ∃ x, u.Hashes key x ∧ R.Refuted u t key x ∧ R.Added u t s.1 key value x ∧
          s.2.ledger = w.ledger))
      (InsertPanic R u κ t key value w (Absent R u t key)) (t, w) := by
  have hhash : wp (onSnd (u.hash key) : Step b UInt64) (fun x s => s.1 = t ∧ s.2.ledger = w.ledger ∧ u.Hashes key x)
      (LookupPanic u t w.ledger) (t, w) := by
    rw [wp_onSnd]
    exact wp_mono (User.wp_hash key w) (fun _ _ h => ⟨rfl, h.2.1, h.1⟩) fun _ _ h => ⟨h.1, rfl, h.2.1⟩
  rw [insert, wp_bind]
  refine wp_mono (wp_owned_insertSearch (κ := κ) hw hhash) ?_ (fun _ _ => id)
  rintro x ⟨t', w'⟩ ⟨ht, hl, hx⟩
  obtain rfl : t' = t := ht
  refine wp_mono (h.insert hw κ key value x w') ?_ ?_
  · rintro (_ | old) s hr
    · refine ⟨nofun, fun _ => ⟨x, hx, hr.1, hr.2.1, hr.2.2.trans hl⟩⟩
    · refine ⟨fun old' hold => ?_, nofun⟩
      cases hold
      exact ⟨hr.1, dropped_of_ledger hl hr.2⟩
  · rintro p s ⟨hp, hrefuted, hrest⟩
    refine ⟨hp, fun hexhausted => ⟨x, hx, hrefuted hexhausted⟩, fun hne => ?_⟩
    rcases hrest hne with ⟨hsame, hd⟩ | ⟨old, hreplaced, hd⟩
    · exact .inl ⟨hsame, dropped_of_ledger hl hd⟩
    · exact .inr ⟨old, hreplaced, dropped_of_ledger hl hd⟩

end Opthash.HashMap
