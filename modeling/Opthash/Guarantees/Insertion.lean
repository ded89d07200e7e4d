import Opthash.Funnel.Insertion
import Opthash.Guarantees.Growth

namespace Opthash

open Exec FiniteMap HashMap

variable {W K V : Type} {hash : K → UInt64} {eqv : K → K → Bool} {copyKey : K → K} {copyValue : V → V}

inductive Op.Puts (key : K) (value : V) : Op K V → Prop
  | insert : Puts key value (.insert key value)
  | entryOrInsert : Puts key value (.entryOrInsert key value)
  | tryInsert : Puts key value (.tryInsert key value)
  | getOrInsertWith : Puts key value (.getOrInsertWith key value (some key))

namespace HashMap

variable {b : TableBackend W K V} {R : Reading b.Table b.Location b.Vacant b.Scan K V} {u : User W K V} {t : b.Table}
  {key : K} {value : V} {x : UInt64} {op : Op K V}

theorem wp_step_puts (hc : Contract R u) {P : b.Table → Prop} {N : Panic → b.Table → Prop} {token : b.Vacant → Prop}
    (hhash : ∀ w : World W K V, wp (u.hash key) (fun y _ => y = x) (fun _ _ => False) w)
    (hinsert : ∀ w, wp (b.insert key value x) (fun r s => r = none ∧ P s.1) (fun p s => N p s.1) (t, w))
    (hfind : ∀ w, wp (b.findForEntry key x) (fun r s => s.1 = t ∧ ∃ vacant, r = .inr vacant ∧ token vacant)
      (fun _ _ => False) (t, w))
    (hvacant : ∀ vacant w, token vacant → wp (b.insertForVacant key value vacant)
      (fun loc s => P s.1 ∧ R.Holds s.1 loc (key, value)) (fun p s => N p s.1) (t, w))
    (hop : op.Puts key value) (w : World W K V) :
    wp (step b u op) (fun _ s => P s.1) (fun p s => N p s.1) (t, w) := by
  have howned : ∀ {α : Type} {c : Step b α} {s : b.Table × World W K V} {Q : α → b.Table × World W K V → Prop}
      {Z : Panic → b.Table × World W K V → Prop}, wp c Q (fun _ _ => False) s → wp (u.owned key value c) Q Z s := by
    intro α c s Q Z h
    rw [User.owned, wp_guarded]
    exact wp_mono h (fun _ _ => id) fun _ _ => False.elim
  have hsearch : ∀ w, wp (do
        let hash ← Exec.onSnd (u.hash key)
        b.findForEntry key hash : Step b (b.Location ⊕ b.Vacant))
      (fun r s => s.1 = t ∧ ∃ vacant, r = .inr vacant ∧ token vacant) (fun _ _ => False) (t, w) := by
    intro w
    rw [wp_bind, wp_onSnd]
    refine wp_mono (hhash w) ?_ fun _ _ => id
    rintro _ w' rfl
    exact hfind w'
  have hplace : ∀ {vacant}, token vacant → ∀ w, wp (do
        let loc ← b.insertForVacant key value vacant
        slotEntry b loc : Step b (K × V)) (fun _ s => P s.1) (fun p s => N p s.1) (t, w) := by
    intro vacant htoken w
    rw [wp_bind]
    refine wp_mono (hvacant vacant w htoken) ?_ fun _ _ => id
    rintro loc ⟨t', w'⟩ ⟨hP, hholds⟩
    rw [wp_slotEntry hc hholds]
    exact hP
  cases hop with
  | insert =>
    rw [step, wp_bind, insert, wp_bind]
    refine howned ?_
    rw [wp_onSnd]
    refine wp_mono (hhash w) ?_ fun _ _ => id
    rintro _ w' rfl
    refine wp_mono (hinsert w') ?_ fun _ _ => id
    rintro _ s ⟨rfl, hP⟩
    exact hP
  | entryOrInsert =>
    rw [step, wp_map, entryOrInsert, wp_bind]
    refine howned (wp_mono (hsearch w) ?_ fun _ _ => id)
    rintro _ ⟨t', w'⟩ ⟨ht, vacant, rfl, htoken⟩
    obtain rfl : t' = t := ht
    have hplaced := hplace htoken w'
    rw [wp_bind] at hplaced
    dsimp only
    rw [wp_bind]
    refine wp_mono hplaced (fun loc s h => ?_) fun _ _ => id
    rw [wp_bind]
    exact wp_mono h (fun _ _ => id) fun _ _ => id
  | tryInsert =>
    rw [step, wp_bind, tryInsert, wp_bind]
    refine howned (wp_mono (hsearch w) ?_ fun _ _ => id)
    rintro _ ⟨t', w'⟩ ⟨ht, vacant, rfl, htoken⟩
    obtain rfl : t' = t := ht
    have hplaced := hplace htoken w'
    rw [wp_bind] at hplaced
    dsimp only
    rw [wp_bind]
    refine wp_mono hplaced (fun loc s h => ?_) fun _ _ => id
    rw [wp_bind]
    exact wp_mono h (fun _ _ => id) fun _ _ => id
  | getOrInsertWith =>
    rw [step, wp_map, getOrInsertWith, wp_bind, wp_guarded]
    have hmake : wp (searchOrMake b u key (some key)) (fun r s => s.1 = t ∧ ∃ vacant, r = .inr (key, vacant) ∧ token vacant)
        (fun _ _ => False) (t, w) := by
      have hfound := hsearch w
      rw [wp_bind] at hfound
      rw [searchOrMake, wp_bind]
      refine wp_mono hfound (fun y s h => ?_) fun _ _ => id
      rw [wp_bind]
      refine wp_mono h ?_ fun _ _ => id
      rintro _ s ⟨ht, vacant, rfl, htoken⟩
      exact ⟨ht, vacant, rfl, htoken⟩
    refine wp_mono hmake ?_ fun _ _ => False.elim
    rintro _ ⟨t', w'⟩ ⟨ht, vacant, rfl, htoken⟩
    obtain rfl : t' = t := ht
    have hplaced := hplace htoken w'
    rw [wp_bind] at hplaced
    dsimp only
    rw [wp_bind]
    refine wp_mono hplaced (fun loc s h => ?_) fun _ _ => id
    rw [wp_bind]
    exact wp_mono h (fun _ _ => id) fun _ _ => id

/-- Two calls leave the same table where both return, and fare alike where the layout alone decides whether an
allocation is granted. -/
structure Coincide (b : TableBackend W K V) (u : User W K V) (t : b.Table) (op op' : Op K V) : Prop where
  returned : ∀ {w w' r r' s s'}, step b u op (t, w) = (.ok r, s) → step b u op' (t, w') = (.ok r', s') → s.1 = s'.1
  unwound : u.SteadyAllocator → ∀ {w p s}, step b u op (t, w) = (.error p, s) →
    ∀ w', ∃ s', step b u op' (t, w') = (.error p, s') ∧ s'.1 = s.1

end HashMap

namespace Funnel

open FunnelTable

variable {group : GroupBackend} {u : User W K V} {t : FunnelTable K V} {key : K} {value : V} {op op' : Op K V}

theorem wp_step_ends (hcalm : u.Calm) (hl : u.Lawful hash eqv)
    (hr : Represents (b := Funnel.backend group u) (reading group) u eqv t) (habsent : find eqv key t.storage.entries = none)
    (hop : op.Puts key value) (w : World W K V) :
    wp (step (Funnel.backend group u) u op) (fun _ s => Ends group u t key value (hash key) s.1)
      (fun p s => Unwinds group u t key value (hash key) p s.1) (t, w) := by
  have hw : t.Wf := hr.wf
  have hmiss : ∀ slot, ¬Matches u t key slot true := by
    rintro slot ⟨e, he, hans⟩
    have hfind := (matched_of_holds (Funnel.contract group u) hr.wf he hans).find hl hr.toStores
    have hnone : find eqv key ((reading group).entries t) = none := habsent
    rw [hnone] at hfind
    cases hfind
  have hhash : ∀ w : World W K V, wp (u.hash key) (fun y _ => y = hash key) (fun _ _ => False) w := fun w =>
    wp_mono (User.wp_hash key w) (fun _ _ h => (hl.hashes _ _).mp h.1) fun _ _ h => h.1.2 hcalm
  exact wp_step_puts (b := Funnel.backend group u) (R := reading group) (Funnel.contract group u) hhash
    (fun w => wp_insert_ends hcalm hw hmiss hr.counted) (fun w => wp_findForEntry_token hcalm hw hmiss)
    (fun vacant w h => wp_insertForVacant_ends hw h.1 h.2) hop w

theorem coincide_of_ends (hcalm : u.Calm) (hd : u.Deterministic) {x : UInt64}
    (hop : ∀ w, wp (step (Funnel.backend group u) u op) (fun _ s => Ends group u t key value x s.1)
      (fun p s => Unwinds group u t key value x p s.1) (t, w))
    (hop' : ∀ w, wp (step (Funnel.backend group u) u op') (fun _ s => Ends group u t key value x s.1)
      (fun p s => Unwinds group u t key value x p s.1) (t, w)) :
    Coincide (Funnel.backend group u) u t op op' := by
  have hplace : Oblivious u.SteadyAllocator (fun _ => True) (placeAbsent group u key value x) :=
    oblivious_placeAbsent hcalm hd
  constructor
  · intro w w' r r' s s' hrun hrun'
    obtain ⟨w₁, slot, s₁, hplaced, hs⟩ := (wp_of_ok hrun).mp (hop w)
    obtain ⟨w₂, slot', s₂, hplaced', hs'⟩ := (wp_of_ok hrun').mp (hop' w')
    exact hs.symm.trans ((hplace.returned hplaced hplaced' trivial trivial).2.trans hs')
  · intro hsteady w p s hrun w'
    obtain ⟨w₁, s₁, hplaced, hs⟩ := (wp_of_error hrun).mp (hop w)
    rcases hrun' : step (Funnel.backend group u) u op' (t, w') with ⟨p' | r', s'⟩
    · obtain ⟨w₂, s₂, hplaced', hs'⟩ := (wp_of_error hrun').mp (hop' w')
      obtain ⟨hresult, htable⟩ := hplace.outcome hsteady t w₁ w₂
      rw [hplaced, hplaced'] at hresult htable
      cases hresult
      exact ⟨s', rfl, hs'.symm.trans (htable.symm.trans hs)⟩
    · obtain ⟨w₂, slot, s₂, hplaced', -⟩ := (wp_of_ok hrun').mp (hop' w')
      obtain ⟨hresult, -⟩ := hplace.outcome hsteady t w₁ w₂
      rw [hplaced, hplaced'] at hresult
      cases hresult

/-- Whatever the filter, the walk and the growth of the table make of an absent key, the four ways to insert it leave
one and the same table. -/
theorem insertion_paths_coincide (hcalm : u.Calm) (hl : u.Lawful hash eqv) (hcopy : u.Copying eqv copyKey copyValue)
    {t : FunnelTable K V}
    (ht : Reachable (Funnel.backend group u) u (Initial group u) (fun e => e.2.1.Plain eqv) t) {key : K}
    (habsent : find eqv key t.storage.entries = none) (value : V) {op op' : Op K V} (hop : op.Puts key value)
    (hop' : op'.Puts key value) : Coincide (Funnel.backend group u) u t op op' := by
  obtain ⟨t₀, w₀, w, h₀, hruns⟩ := ht
  have hr := hruns.represents_of_calm (Funnel.contract group u) hcalm hl hcopy h₀.fresh.represents
  exact coincide_of_ends hcalm hl.deterministic (wp_step_ends hcalm hl hr habsent hop)
    (wp_step_ends hcalm hl hr habsent hop')

theorem insertion_paths_coincide_nine :
    Coincide (Funnel.backend .scalar User.sample) User.sample FunnelTable.stored (.insert 9 90) (.entryOrInsert 9 90) := by
  obtain ⟨ht, -⟩ := stored_of_start (A := fun e => e.2.1.Plain (· == ·)) fun _ => ⟨trivial, nofun, nofun⟩
  exact insertion_paths_coincide User.calm_sample User.lawful_sample User.copying_sample ht (by decide +kernel) 90
    .insert .entryOrInsert

end Funnel

end Opthash
