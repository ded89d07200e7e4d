import Opthash.Calls
import Opthash.Raw.Contents
import Opthash.Raw.Rebuild

namespace Opthash.Rebuildable

open Exec

variable {W T G K V : Type} {group : GroupBackend} {b : Rebuildable T G K V} {u : User W K V}

/-- What moving entries into a new generation keeps: `I done exceptional t` holds of the table `t`
that took the entries `done`, and putting the generation `previous` back restores `old`. -/
structure Moves (b : Rebuildable T G K V) (u : User W K V) (all : List (K × V)) (old : T) (previous : G)
    (I : List (K × V) → Bool → T → Prop) : Prop where
  place : ∀ done e rest exceptional t x, all = done ++ e :: rest → I done exceptional t →
    u.Hashes e.1 x →
      wp (b.placeUnique e x) (fun outside t' => I (done ++ [e]) (exceptional || outside) t')
        (fun _ _ => False) t
  restore : ∀ done exceptional t, I done exceptional t → (b.swapGeneration t previous).1 = old

variable {all : List (K × V)} {old : T} {previous : G} {I : List (K × V) → Bool → T → Prop}

def Interrupted (u : User W K V) (old : T) (b : Rebuildable T G K V) (previous : G) (l : Ledger K V)
    (e : Panic) (s : T × World W K V) : Prop :=
  u.Unwound e ∧ (b.swapGeneration s.1 previous).1 = old ∧ s.2.ledger = l

theorem wp_moveRegion (hm : Moves b u all old previous I) {r : Region (K × V)}
    (hr : r.Scannable b.padded) (hf : r.Filled) {base later : List (K × V)}
    (hall : all = base ++ r.entries ++ later) {exceptional : Bool} {s : T × World W K V}
    (h : I base exceptional s.1) :
    wp (moveRegion group b u exceptional r)
      (fun exceptional' s' => I (base ++ r.entries) exceptional' s'.1 ∧ s'.2.ledger = s.2.ledger)
      (Interrupted u old b previous s.2.ledger) s := by
  rw [Region.entries_eq hf] at hall
  rw [moveRegion, Region.entries_eq hf]
  apply wp_forOccupied (fun slots exceptional' s' =>
    (∀ slot ∈ slots, r.Occ slot) ∧ ∃ done, done ++ slots.filterMap r.slot = base ++ r.occupied.filterMap r.slot ∧
      I done exceptional' s'.1 ∧ s'.2.ledger = s.2.ledger)
  · rintro slot slots exceptional' s' ⟨hocc, done, hdone, hI, hledger⟩
    obtain ⟨e, he⟩ := hf slot (hocc slot (List.mem_cons_self ..))
    rw [List.filterMap_cons, he] at hdone
    rw [wp_bind, Region.getRef, he, expect, wp_pure, wp_bind, wp_onSnd]
    refine wp_mono (User.wp_hash e.1 s'.2) ?_ ?_
    · rintro x w' ⟨hx, hw', -⟩
      rw [wp_bind, wp_onFst]
      have hplace := hm.place done e (slots.filterMap r.slot ++ later) exceptional' s'.1 x
        (by rw [hall, ← hdone]; simp) hI hx
      refine wp_mono hplace ?_ (fun _ _ h => h.elim)
      intro outside t' hI'
      refine ⟨⟨fun slot' h' => hocc slot' (List.mem_cons_of_mem _ h'), done ++ [e], ?_, hI', ?_⟩, ?_⟩
      · rw [← hdone, List.append_assoc]
        rfl
      · exact hw'.trans hledger
      · exact ⟨rfl, hr, fun _ _ => rfl⟩
    · rintro p w' ⟨hp, hw', -⟩
      exact ⟨hp, hm.restore _ _ _ hI, hw'.trans hledger⟩
  · rintro exceptional' s' ⟨-, done, hdone, hI, hledger⟩
    rw [List.filterMap_nil, List.append_nil] at hdone
    exact ⟨hdone ▸ hI, hledger⟩
  · exact hr
  · exact ⟨fun slot hslot => (r.mem_occupied.mp hslot).2, base, rfl, h, rfl⟩

theorem wp_moveRegions (hm : Moves b u all old previous I) {rs : List (Region (K × V))}
    (hrs : ∀ r ∈ rs, r.Scannable b.padded ∧ r.Filled) {base : List (K × V)}
    (hall : all = base ++ rs.flatMap Region.entries) {exceptional : Bool} {s : T × World W K V}
    (h : I base exceptional s.1) :
    wp (rs.foldlM (moveRegion group b u) exceptional)
      (fun exceptional' s' => I all exceptional' s'.1 ∧ s'.2.ledger = s.2.ledger)
      (Interrupted u old b previous s.2.ledger) s := by
  induction rs generalizing base exceptional s with
  | nil =>
    rw [List.flatMap_nil, List.append_nil] at hall
    exact ⟨hall ▸ h, rfl⟩
  | cons r rs ih =>
    rw [List.flatMap_cons, ← List.append_assoc] at hall
    obtain ⟨hr, hf⟩ := hrs r (List.mem_cons_self ..)
    rw [List.foldlM_cons, wp_bind]
    refine wp_mono (wp_moveRegion hm hr hf hall h) ?_ (fun _ _ => id)
    rintro exceptional' s' ⟨hI, hledger⟩
    rw [← hledger]
    exact ih (fun r' hr' => hrs r' (List.mem_cons_of_mem _ hr')) hall hI

theorem wp_rebuild {next : G} {t : T} {w : World W K V}
    (hm : Moves b u all t (b.swapGeneration t next).2 I)
    (hrs : ∀ r ∈ b.regions (b.swapGeneration t next).2, r.Scannable b.padded ∧ r.Filled)
    (hall : all = (b.regions (b.swapGeneration t next).2).flatMap Region.entries)
    (h : I [] false (b.swapGeneration t next).1) :
    wp (rebuild group b u next)
      (fun recovered s' => I all recovered s'.1 ∧ s'.2.ledger = w.ledger)
      (fun e s' => u.Unwound e ∧ s'.1 = t ∧ s'.2.ledger = w.ledger) (t, w) := by
  simp only [rebuild, wp_bind, wp_get, wp_modify, wp_guarded]
  refine wp_mono (wp_moveRegions hm hrs hall h) (fun _ _ => id) ?_
  rintro e s' ⟨he, hrestore, hledger⟩
  rw [if_neg he.ne_abort]
  exact ⟨he, hrestore, hledger⟩

end Opthash.Rebuildable
