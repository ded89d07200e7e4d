import Opthash.Funnel.Reading

namespace Opthash.Funnel.FunnelTable

open Exec Probe Probing Ledger

variable {W K V : Type} {group : GroupBackend} {u : User W K V} {t : FunnelTable K V} {k : K} {v : V}
  {x : UInt64} {κ : K ⊕ V → Nat} {w : World W K V}

theorem eqStable_true : u.EqStable fun _ => True := fun _ _ _ _ => trivial

section Insert

theorem wp_insertForVacant {vacant : FunnelVacant} (hw : t.Wf) (hv : t.Fits vacant x) :
    wp (insertForVacant group u k v vacant)
      (fun slot s => (reading group).Added u t s.1 k v x ∧ s.1.storage.Holds slot (k, v) ∧
        s.2.ledger = w.ledger)
      (NotPlaced (reading group) u κ t k v w) (t, w) := by
  obtain ⟨rfl, hslot⟩ := hv
  rw [insertForVacant, wp_bind]
  apply wp_owned_grow (.refl hw)
  rw [wp_bind]
  refine wp_mono (wp_prepareVacantInsert hw w) ?_ (fun _ _ h => h)
  rintro grown ⟨t₁, w₁⟩ ⟨hledger, hr, -, hsame⟩
  rw [wp_bind, wp_get]
  dsimp only at hledger hr hsame ⊢
  rw [wp_pure]
  have hvacates : t₁.Vacates vacant.hash
      (if (grown || vacant.exact == FunnelVacant.unsearched) = true then
        t₁.searchVacancy group (prepareFunnel t₁.probeSeed vacant.hash)
      else if vacant.exact = FunnelVacant.exhausted then none else some (t₁.vacancyAt vacant.exact)) := by
    split
    · exact vacates_searchVacancy hr.keeps.wf
    · rename_i hexact
      rw [Bool.or_eq_true, not_or] at hexact
      split
      · exact vacates_none
      · rename_i hex
        obtain rfl := hsame (by simpa using hexact.1)
        rintro _ ⟨⟩
        exact ⟨vacant.exact, rfl, hslot (by simpa using hexact.2) hex⟩
  exact wp_placeAbsentAfterSearch hledger hr hvacates

theorem wp_vacancyForInsert {exact : Option SearchResult} (hw : t.Wf)
    (hexact : ∀ r, exact = some r → Misses t x r) :
    wp (vacancyForInsert group u x exact)
      (fun r s => s.2.ledger = w.ledger ∧ (reading group).Readied u t s.1 ∧ s.1.Vacates x r.1 ∧
        r.2 = s.1.membershipSlot x)
      (Refused u t w.ledger) (t, w) := by
  simp only [vacancyForInsert, wp_bind, wp_get]
  refine wp_mono (wp_prepareVacantInsert hw w) ?_ (fun _ _ h => h)
  rintro grown ⟨t₁, w₁⟩ ⟨hledger, hr, hseed, hsame⟩
  dsimp only at hledger hr hseed hsame
  rw [← hseed]
  rw [wp_ite]
  refine ⟨fun _ => ?_, fun hgrown => ?_⟩
  · rw [wp_bind, wp_get]
    exact ⟨hledger, hr, vacates_searchVacancy hr.keeps.wf, rfl⟩
  · obtain rfl := hsame (by simpa using hgrown)
    rw [wp_bind, wp_get]
    cases exact with
    | none => exact ⟨hledger, hr, vacates_searchVacancy hr.keeps.wf, rfl⟩
    | some r =>
      have hmiss := hexact r rfl
      rw [wp_bind]
      cases r with
      | hit slot => exact hmiss.elim
      | vacant slot =>
        refine ⟨hledger, hr, ?_, rfl⟩
        rintro _ ⟨⟩
        exact ⟨slot, rfl, hmiss⟩
      | full => exact ⟨hledger, hr, vacates_none, rfl⟩
      | rangeFailure => exact ⟨hledger, hr, vacates_none, rfl⟩

theorem keeps_replaceValue {slot : Nat} {e : K × V} (hw : t.Wf) (he : t.storage.Holds slot e) :
    (reading group).Steady u t (t.replaceValue slot e.1 v) :=
  ⟨⟨wf_replaceValue hw he, counted_replaceValue he, sound_replaceValue he⟩, rfl, fun _ => id⟩

theorem wp_insert (hw : t.Wf) :
    wp (insert group u k v x)
      (fun r s => match r with
        | some old => (reading group).Replaced u t s.1 k v old ∧ User.Dropped κ (κ (.inl k)) w s.2
        | none => (reading group).Refuted u t k x ∧ (reading group).Added u t s.1 k v x ∧
          s.2.ledger = w.ledger)
      (InsertPanic (reading group) u κ t k v w ((reading group).Refuted u t k x)) (t, w) := by
  rw [insert, wp_bind]
  refine wp_mono (wp_owned_insertSearch hw (wp_searchForInsert hw eqStable_true
    ⟨rfl, rfl, trivial⟩)) ?_ (fun _ _ => id)
  rintro found ⟨t', w'⟩ ⟨⟨ht, hledger, -⟩, hfound⟩
  dsimp only at ht hledger
  subst ht
  cases found with
  | hit slot =>
    obtain ⟨e, he, hans⟩ := hfound
    have hreplaced : (reading group).Replaced u t' (t'.replaceValue slot e.1 v) k v e.2 := by
      obtain ⟨rest, hrest, hrest'⟩ := entries_replaceValue (v := v) he
      exact ⟨keeps_replaceValue hw he, e.1, rest, hans, hrest, hrest'⟩
    simp only [replaceAt, wp_bind, wp_get, Region.getRef, he.2.2, expect, wp_pure, wp_modify, wp_onSnd]
    refine wp_mono (User.wp_dropBoth (κ := κ) (User.wp_dropK k) (User.wp_dropV e.2) w') ?_ ?_
    · intro _ w'' hdrop
      exact ⟨hreplaced, by rw [hdrop.gone, hledger], by rw [hdrop.made, hledger]⟩
    · rintro p w'' ⟨hp, hdrop⟩
      refine ⟨hp.blamed, fun hexhausted => absurd hexhausted hp.not_exhausted, fun hne => .inr ⟨e.2, hreplaced, ?_⟩⟩
      have hdrop := hdrop hne
      exact ⟨by rw [hdrop.gone, hledger]; rfl, by rw [hdrop.made, hledger]⟩
  | absent exact =>
    obtain ⟨hrefuted, hmisses⟩ := hfound
    dsimp only
    rw [wp_bind]
    refine wp_mono (wp_owned_grow (κ := κ) (.refl hw) (hledger ▸ wp_vacancyForInsert hw hmisses)) ?_
      (fun _ _ h => h.insertPanic fun _ => hrefuted)
    rintro ⟨vacancy, membership⟩ ⟨t₁, w₁⟩ ⟨hl₁, hr, hv, hm⟩
    dsimp only at hl₁ hr hv hm ⊢
    subst hm
    rw [wp_bind]
    refine wp_mono (wp_placeAbsentAfterSearch hl₁ hr hv) ?_ (fun _ _ h => h.insertPanic fun _ => hrefuted)
    rintro slot s ⟨hadded, -, hl⟩
    exact ⟨hrefuted, hadded, hl⟩

end Insert

end Opthash.Funnel.FunnelTable
