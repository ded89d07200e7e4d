import Opthash.Calls
import Opthash.Raw.Contents

namespace Opthash

open Exec Ledger

variable {W T K V : Type} {group : GroupBackend} {padded : Bool} {u : User W K V} (region : T → Region (K × V))

section Record

variable (record : Nat → UInt64 → T → T)

def recorded (hashAt : Nat → UInt64) (slots : List Nat) (t : T) : T :=
  slots.foldl (fun t slot => record slot (hashAt slot) t) t

theorem recorded_append {hashAt : Nat → UInt64} {slots : List Nat} {slot : Nat} {t : T} :
    recorded record hashAt (slots ++ [slot]) t = record slot (hashAt slot) (recorded record hashAt slots t) := by
  rw [recorded, List.foldl_append]
  rfl

theorem wp_recordOccupied {body : Unit → Nat → Run T W K V Unit}
    (hbody : ∀ slot, body () slot = do
      let (t, _) ← Exec.get
      let entry ← (region t).getRef slot
      let hash ← Exec.onSnd (u.hash entry.1)
      Exec.modify fun s => (record slot hash s.1, s.2))
    (hregion : ∀ slot x t, region (record slot x t) = region t) {t : T} {w : World W K V}
    (hs : (region t).Scannable padded) (hf : (region t).Filled) :
    wp (forOccupied group padded (fun s => region s.1) body ())
      (fun _ s => ∃ hashAt, (∀ slot e, (region t).Holds slot e → u.Hashes e.1 (hashAt slot)) ∧
        s.1 = recorded record hashAt (region t).occupied t ∧ s.2.ledger = w.ledger ∧
        ∀ n, u.CalmFor ((region t).occupied.length + n) w.code → u.CalmFor n s.2.code)
      (fun e s => u.Unwound e ∧ (∃ hashAt slots, s.1 = recorded record hashAt slots t) ∧
        s.2.ledger = w.ledger ∧ ∀ n, ¬u.CalmFor ((region t).occupied.length + n) w.code) (t, w) := by
  have hsame : ∀ hashAt slots, region (recorded record hashAt slots t) = region t := by
    intro hashAt slots
    induction slots using List.reverseRecOn with
    | nil => rfl
    | append_singleton slots slot ih => rw [recorded_append, hregion, ih]
  apply wp_forOccupied (fun rest _ s => ∃ hashAt done, (region t).occupied = done ++ rest ∧
    (∀ slot ∈ done, ∀ e, (region t).Holds slot e → u.Hashes e.1 (hashAt slot)) ∧
    s.1 = recorded record hashAt done t ∧ s.2.ledger = w.ledger ∧
    ∀ n, u.CalmFor ((region t).occupied.length + n) w.code → u.CalmFor (rest.length + n) s.2.code)
  · rintro slot rest _ ⟨t', w'⟩ ⟨hashAt, done, hall, hhash, rfl, hledger, hcalm⟩
    dsimp only at hledger hcalm
    have hmem : slot ∈ (region t).occupied := by
      rw [hall]
      exact List.mem_append_right _ (List.mem_cons_self ..)
    obtain ⟨hlt, hocc⟩ := (region t).mem_occupied.mp hmem
    obtain ⟨e, he⟩ := hf.holds hlt hocc
    have hnew : slot ∉ done := by
      have hnodup := (region t).occupiedFrom_nodup 0
      rw [← Region.occupied, hall] at hnodup
      exact fun h => (List.nodup_append.mp hnodup).2.2 slot h slot (List.mem_cons_self ..) rfl
    rw [hbody]
    simp only [wp_bind, wp_get]
    rw [hsame, Region.getRef, he.2.2, expect, wp_pure, wp_bind, wp_onSnd]
    refine wp_mono (User.wp_hash e.1 w') ?_ ?_
    · rintro x w'' ⟨hx, hledger', hrun⟩
      rw [wp_modify]
      refine ⟨⟨Function.update hashAt slot x, done ++ [slot], ?_, ?_, ?_, hledger'.trans hledger, ?_⟩, ?_⟩
      · rw [hall, List.append_assoc]
        rfl
      · intro slot' hslot' e' he'
        rcases List.mem_append.mp hslot' with h | h
        · rw [Function.update_of_ne (by rintro rfl; exact hnew h)]
          exact hhash slot' h e' he'
        · obtain rfl := List.mem_singleton.mp h
          rw [Function.update_self, he'.unique he]
          exact hx
      · have hdone : recorded record (Function.update hashAt slot x) done t = recorded record hashAt done t := by
          apply List.foldl_ext
          intro t' slot' h
          rw [Function.update_of_ne (by rintro rfl; exact hnew h)]
        rw [recorded_append, hdone, Function.update_self]
      · intro n h
        have hnext := hcalm n h
        rw [List.length_cons, Nat.succ_add] at hnext
        exact hnext.next hrun
      · refine ⟨?_, ?_, fun _ _ => ?_⟩
        · dsimp only
          rw [hregion, hsame]
        · dsimp only
          rwa [hregion, hsame]
        · dsimp only
          rw [hregion, hsame]
    · rintro p w'' ⟨hp, hledger', hpanic⟩
      refine ⟨hp, ⟨hashAt, done, rfl⟩, hledger'.trans hledger, fun n h => ?_⟩
      have hnext := hcalm n h
      rw [List.length_cons, Nat.succ_add] at hnext
      exact hpanic _ hnext
  · rintro _ ⟨t', w'⟩ ⟨hashAt, done, hall, hhash, rfl, hledger, hcalm⟩
    rw [List.append_nil] at hall
    subst hall
    refine ⟨hashAt, ?_, rfl, hledger, fun n h => ?_⟩
    · exact fun slot e he => hhash slot ((region t).mem_occupied.mpr ⟨he.1, he.2.1⟩) e he
    · have := hcalm n h
      rwa [List.length_nil, Nat.zero_add] at this
  · exact hs
  · exact ⟨fun _ => 0, [], rfl, fun _ h => (List.not_mem_nil h).elim, rfl, rfl, fun n h => h⟩

end Record

section Take

variable (take : Nat → T → T) {κ : K ⊕ V → Nat}

/-- A loop that moves the entry out of each occupied slot and drops it; a destructor may interrupt it
after its entry was taken. -/
theorem wp_takeOccupied (I : List (K × V) → T → Prop) {body : Unit → Nat → Run T W K V Unit}
    (hbody : ∀ slot, body () slot = do
      let (t, _) ← Exec.get
      let entry ← (region t).getRef slot
      Exec.modify fun s => (take slot s.1, s.2)
      Exec.onSnd (u.dropEntry entry))
    {mark : UInt8} (hmark : isOccupied mark = false)
    (hregion : ∀ slot t, region (take slot t) = (region t).setControl slot mark)
    (hscan : ∀ taken t, I taken t → (region t).Scannable padded ∧ (region t).Filled)
    (htake : ∀ taken t slot e, I taken t → (region t).Holds slot e → I (taken ++ [e]) (take slot t))
    {t : T} {w : World W K V} {before : List (K × V)} (h : I before t)
    (hdropped : User.Dropped κ (weighEntries κ before) w w') :
    wp (forOccupied group padded (fun s => region s.1) body ())
      (fun _ s => ∃ taken, I taken s.1 ∧ User.Dropped κ (weighEntries κ taken) w s.2 ∧ (region s.1).entries = [])
      (fun p s => User.Burst u p ∧ (p ≠ .abort → ∃ taken, I taken s.1 ∧
        User.Dropped κ (weighEntries κ taken) w s.2)) (t, w') := by
  apply wp_forOccupied (fun rest _ s => rest.Nodup ∧ (∀ i, i ∈ rest ↔ i < (region s.1).capacity ∧ (region s.1).Occ i) ∧
    ∃ taken, I taken s.1 ∧ User.Dropped κ (weighEntries κ taken) w s.2)
  · rintro slot rest _ ⟨t', w''⟩ ⟨hnodup, hmem, taken, hI, htaken⟩
    dsimp only at hmem hI htaken
    obtain ⟨hlt, hocc⟩ := (hmem slot).mp (List.mem_cons_self ..)
    obtain ⟨e, he⟩ := (hscan taken t' hI).2.holds hlt hocc
    have hI' := htake taken t' slot e hI he
    have hgains : ∀ w₁, User.Dropped κ (weighEntry κ e) w'' w₁ →
        User.Dropped κ (weighEntries κ (taken ++ [e])) w w₁ := by
      intro w₁ h
      have := Gains.trans htaken h
      rwa [weighEntries_append, weighEntries_cons, weighEntries_nil, Nat.add_zero]
    rw [hbody]
    simp only [wp_bind, wp_get, Region.getRef, he.2.2, expect, wp_pure, wp_modify, wp_onSnd]
    refine wp_mono (User.wp_dropEntry (κ := κ) e w'') ?_ ?_
    · intro _ w₁ hdrop
      refine ⟨⟨(List.nodup_cons.mp hnodup).2, fun i => ?_, taken ++ [e], hI', hgains w₁ hdrop⟩, ?_⟩
      · rw [hregion, Region.capacity_setControl, Region.occ_setControl hmark]
        by_cases hi : i = slot
        · subst hi
          simp [(List.nodup_cons.mp hnodup).1]
        · rw [if_neg hi, ← hmem, List.mem_cons]
          simp [hi]
      · refine ⟨?_, (hscan _ _ hI').1, fun i hi => ?_⟩
        · rw [hregion, Region.capacity_setControl]
        · rw [hregion, Region.occ_setControl hmark, if_neg hi]
    · exact fun p w₁ hp => ⟨hp.1, fun hne => ⟨taken ++ [e], hI', hgains w₁ (hp.2 hne)⟩⟩
  · rintro _ ⟨t', w''⟩ ⟨-, hmem, taken, hI, htaken⟩
    dsimp only at hmem hI htaken
    refine ⟨taken, hI, htaken, ?_⟩
    have hnil : (region t').occupied = [] := List.eq_nil_iff_forall_not_mem.mpr fun i hi =>
      (List.not_mem_nil ((hmem i).mpr ((region t').mem_occupied.mp hi))).elim
    rw [Region.entries_eq (hscan taken t' hI).2, hnil]
    rfl
  · exact (hscan before t h).1
  · exact ⟨(region t).occupiedFrom_nodup 0, fun i => (region t).mem_occupied, before, h, hdropped⟩

end Take

end Opthash
