import Opthash.Funnel.Agreement
import Opthash.Guarantees.Placement

namespace Opthash.Funnel

open Exec Probe Probing FiniteMap HashMap FunnelTable

variable {W K V : Type} {group : GroupBackend} {u : User W K V} {hash : K → UInt64} {eqv : K → K → Bool}
  {copyKey : K → K} {copyValue : V → V} {t : FunnelTable K V} {key : K} {w : World W K V}

def Seeks (eqv : K → K → Bool) (t : FunnelTable K V) (key : K) : Option Nat → Prop
  | some slot => ∃ e, t.storage.Holds slot e ∧ eqv key e.1
  | none => ∀ slot e, t.storage.Holds slot e → eqv key e.1 = false

theorem exists_seeks (eqv : K → K → Bool) (t : FunnelTable K V) (key : K) : ∃ r, Seeks eqv t key r := by
  by_cases h : ∃ slot e, t.storage.Holds slot e ∧ eqv key e.1
  · obtain ⟨slot, e, he⟩ := h
    exact ⟨some slot, e, he⟩
  · exact ⟨none, fun slot e he => by_contra fun hk => h ⟨slot, e, he, by simpa using hk⟩⟩

section Stored

variable (hl : u.Lawful hash eqv) (hs : Stores (b := Funnel.backend group u) (reading group) u eqv t)
include hl hs

theorem Seeks.unique {r r' : Option Nat} (h : Seeks eqv t key r) (h' : Seeks eqv t key r') : r = r' := by
  have hw : t.Wf := hs.wf
  cases r with
  | none =>
    cases r' with
    | none => rfl
    | some slot' =>
      obtain ⟨e, he, hk⟩ := h'
      rw [h slot' e he] at hk
      cases hk
  | some slot =>
    obtain ⟨e, he, hk⟩ := h
    cases r' with
    | none =>
      rw [h' slot e he] at hk
      cases hk
    | some slot' =>
      obtain ⟨e', he', hk'⟩ := h'
      have hmem : ∀ {slot e}, t.storage.Holds slot e → slot ∈ t.storage.occupied :=
        fun he => t.storage.mem_occupied.mpr ⟨he.1, he.2.1⟩
      rw [hs.distinct.place_unique hl.equality (Region.holds_occupied hw.filled) (fun _ _ _ => Region.Holds.unique)
        (hmem he) (hmem he') he he' hk hk']

theorem seeks_of_refuted (h : FunnelTable.Refuted u t key (hash key)) : Seeks eqv t key none := by
  intro slot e he
  obtain ⟨x, hx, hplaced⟩ := hs.sound (fun _ => hl.deterministic) slot e he
  rw [(hl.hashes _ _).mp hx] at hplaced
  by_contra hk
  have hk : eqv key e.1 = true := by simpa using hk
  rw [← hl.congr key e.1 hk] at hplaced
  rw [← hl.answers _ _ _ (h slot e he hplaced)] at hk
  cases hk

omit hs in
theorem seeks_of_matches {slot : Nat} (h : Matches u t key slot true) : Seeks eqv t key (some slot) := by
  obtain ⟨e, he, hans⟩ := h
  exact ⟨e, he, (hl.answers _ _ _ hans).symm⟩

theorem wp_lookup_seeks (hexceptional : t.exceptionalPlacement = false) (hn : t.shape.n ≠ 0) :
    wp (t.lookupRecordedLevels group (inspectKey u key) (prepareFunnel t.probeSeed (hash key))
        (controlFingerprint (hash key)) (t.membershipGate (hash key)).levels)
      (fun r s => s.1 = t ∧ Seeks eqv t key r) (fun _ _ => ¬u.Calm) (t, w) := by
  have hw : t.Wf := hs.wf
  have hknown : t.KnownLevels (t.membershipGate (hash key)).levels := by
    rw [membershipGate, membershipGateAt]
    split
    · exact knownLevels_zero
    · exact hw.bins _ _
  refine wp_mono (wp_lookupRecordedLevels (J := fun _ => True) hw (fun _ _ _ _ => trivial) hn hknown
    ⟨rfl, rfl, trivial⟩) ?_ (fun _ _ h => h.1.2)
  rintro (_ | slot) s ⟨hlooked, hr⟩
  · exact ⟨hlooked.table, seeks_of_refuted hl hs (hr hexceptional)⟩
  · exact ⟨hlooked.table, seeks_of_matches hl hr⟩

theorem wp_exact_seeks (hexceptional : t.exceptionalPlacement = false) (hn : t.shape.n ≠ 0) (cleanEpoch : Bool) :
    wp (t.searchExactMode group (inspectKey u key) cleanEpoch (prepareFunnel t.probeSeed (hash key))
        (controlFingerprint (hash key)))
      (fun r s => s.1 = t ∧ Seeks eqv t key r.hit?) (fun _ _ => ¬u.Calm) (t, w) := by
  refine wp_mono (wp_searchExactMode (J := fun _ => True) hs.wf (fun _ _ _ _ => trivial) hn cleanEpoch
    ⟨rfl, rfl, trivial⟩) ?_ (fun _ _ h => h.1.2)
  rintro r s ⟨hlooked, ⟨slot, rfl, hmatches⟩ | ⟨hmisses, hrefuted⟩⟩
  · exact ⟨hlooked.table, seeks_of_matches hl hmatches⟩
  · refine ⟨hlooked.table, ?_⟩
    have hnone : r.hit? = none := by
      cases r with
      | hit slot => exact hmisses.elim
      | _ => rfl
    rw [hnone]
    exact seeks_of_refuted hl hs (hrefuted hexceptional)

end Stored

/-- The vacancy walk reports what the exact search of an absent key reports, and the two modes of the
exact search agree while there is no tombstone. -/
theorem FunnelTable.searchVacancy_agrees {σ : Type} {inspect : Nat → Exec Panic σ Bool} {x : UInt64} {r : ReserveFraction}
    (hshape : FunnelShape.fromSlots t.shape.n r = .ok t.shape) (hn : t.shape.n ≠ 0) :
    ((∀ slot, some slot ∈ t.walk (prepareFunnel t.probeSeed x) → t.storage.ctrl slot = controlFingerprint x →
        Returns (inspect slot) false fun _ => False) →
      Returns (do
          let result ← t.searchExactMode group inspect false (prepareFunnel t.probeSeed x) (controlFingerprint x)
          t.vacancyOf result)
        (t.searchVacancy group (prepareFunnel t.probeSeed x)) fun _ => False) ∧
    ((∀ slot, slot < t.shape.n → t.storage.ctrl slot ≠ ctrlTombstone) →
      t.searchExactMode group inspect true (prepareFunnel t.probeSeed x) (controlFingerprint x) =
        t.searchExactMode group inspect false (prepareFunnel t.probeSeed x) (controlFingerprint x)) := by
  have hlaid : t.shape.Laid := ((FunnelShape.fromSlots_spec hshape).2.2 hn).1
  have hf := isOccupied_controlFingerprint x
  refine ⟨fun hmiss => ?_, fun hclean => ?_⟩
  · have hkind : ∀ slot, t.modeKind false (controlFingerprint x) slot =
        slotKind t.storage.ctrl (controlFingerprint x) slot :=
      fun slot => if_neg fun hmode => Bool.false_ne_true hmode.1
    rw [searchExactMode_eq hf hlaid hn]
    have hcompare : ∀ slot, some slot ∈ t.walk (prepareFunnel t.probeSeed x) →
        t.modeKind false (controlFingerprint x) slot = .candidate → Returns (inspect slot) false fun _ => False :=
      fun slot hslot hk => hmiss slot hslot ((slotKind_candidate hf).mp (hkind slot ▸ hk))
    obtain ⟨o, ho, hhit, hvacancy⟩ := returns_search_miss hcompare
    have hfree : (fun slot => decide (t.modeKind false (controlFingerprint x) slot = .empty ∨
        t.modeKind false (controlFingerprint x) slot = .deleted)) = fun slot => isFree (t.storage.ctrl slot) := by
      funext slot
      rw [hkind]
      exact Bool.eq_iff_iff.mpr (decide_eq_true_iff.trans slotKind_free)
    rw [hfree] at hvacancy
    rw [bind_map_left, searchVacancy_eq hlaid hn, ← hvacancy]
    refine ho.bind ?_
    cases o with
    | hit slot => cases hhit
    | vacant slot => exact returns_pure _ _
    | failed => exact returns_pure _ _
    | exhausted => exact returns_pure _ _
  · rw [searchExactMode_eq hf hlaid hn, searchExactMode_eq hf hlaid hn]
    congr 1
    exact search_congr (fun slot hslot => modeKind_clean (hclean slot (walk_lt hlaid hslot))) none

section Walked

def FunnelTable.walked (t : FunnelTable UInt64 Nat) (key : UInt64) (count : Nat) : List (Option UInt8) :=
  ((t.walk (prepareFunnel t.probeSeed key)).take count).map (Option.map t.storage.ctrl)

def FunnelTable.compareKey (t : FunnelTable UInt64 Nat) (key : UInt64) (slot : Nat) : Exec Panic Unit Bool :=
  pure ((t.storage.slot slot).any fun e => e.1 == key)

def FunnelTable.walks (key : UInt64) (bytes : List UInt8) (t : FunnelTable UInt64 Nat) : Bool :=
  decide (t.shape.n ≠ 0) && t.walked key bytes.length == bytes.map some &&
    ((List.range t.shape.n).all fun slot => (t.storage.slot slot).all fun e => e.1 != key) &&
    t.storage.tombstoneCount == bytes.count ctrlTombstone

theorem FunnelTable.exists_walks (ops : List (Op UInt64 Nat)) (key : UInt64) (bytes : List UInt8)
    (hreplay : (replay (Funnel.backend .scalar User.sample) User.sample ops (unallocated, World.start)).any
      (fun s => s.1.walks key bytes) = true) :
    ∃ t : FunnelTable UInt64 Nat, t.Wf ∧ t.shape.n ≠ 0 ∧ t.walked key bytes.length = bytes.map some ∧
      (∀ slot < t.shape.n, Returns (t.compareKey key slot) false fun _ => False) ∧
      t.storage.tombstoneCount = bytes.count ctrlTombstone := by
  obtain ⟨t, w, ht, hwalks⟩ := Reachable.replayed (b := Funnel.backend .scalar User.sample) (u := User.sample)
    (A := fun _ => True) initial_unallocated World.start (fun op (_ : op ∈ ops) _ _ => trivial)
    (fun s => s.1.walks key bytes) hreplay
  obtain ⟨hwalks, htombstones⟩ := Bool.and_eq_true_iff.mp hwalks
  obtain ⟨hwalk, habsent⟩ := Bool.and_eq_true_iff.mp hwalks
  obtain ⟨hn, hbytes⟩ := Bool.and_eq_true_iff.mp hwalk
  have hw : t.Wf := ht.wf (contract .scalar User.sample) fun _ h => h.fresh.wf
  refine ⟨t, hw, of_decide_eq_true hn, eq_of_beq hbytes, fun slot hslot => ?_, eq_of_beq htombstones⟩
  have hslot := List.all_eq_true.mp habsent slot (List.mem_range.mpr hslot)
  have hmiss : (t.storage.slot slot).any (fun e => e.1 == key) = false := by
    cases he : t.storage.slot slot with
    | none => rfl
    | some e =>
      rw [he] at hslot
      exact Bool.eq_false_iff.mpr (bne_iff_ne.mp hslot ∘ eq_of_beq)
  have hcompare : t.compareKey key slot = pure false := congrArg pure hmiss
  rw [hcompare]
  exact returns_pure _ _

/-- Eight keys of one fingerprint fill the first level's bucket of the walk and begin the second's; a removal leaves a
tombstone before the first EMPTY slot. -/
theorem FunnelTable.searchVacancy_agrees_removed : controlFingerprint 100 = 1 ∧
    (∃ t : FunnelTable UInt64 Nat, t.walked 100 9 = [1, ctrlTombstone, 1, 1, 1, 1, 1, 1, ctrlEmpty].map some ∧
      Returns (do
          let result ← t.searchExactMode .scalar (t.compareKey 100) false (prepareFunnel t.probeSeed 100)
            (controlFingerprint 100)
          t.vacancyOf result)
        (t.searchVacancy .scalar (prepareFunnel t.probeSeed 100)) fun _ => False) ∧
    ∃ t : FunnelTable UInt64 Nat, t.walked 100 9 = [1, 1, 1, 1, 1, 1, 1, 1, ctrlEmpty].map some ∧
      t.searchExactMode .scalar (t.compareKey 100) true (prepareFunnel t.probeSeed 100) (controlFingerprint 100) =
        t.searchExactMode .scalar (t.compareKey 100) false (prepareFunnel t.probeSeed 100) (controlFingerprint 100) := by
  let filled : List (Op UInt64 Nat) := [.insert 1 10, .insert 2 20, .insert 3 30, .insert 4 40, .insert 5 50,
    .insert 6 60, .insert 7 70, .insert 8 80]
  refine ⟨by decide, ?_, ?_⟩
  · obtain ⟨t, hw, hn, hwalked, hmiss, -⟩ := exists_walks (filled ++ [.removeEntry 2]) 100
      [1, ctrlTombstone, 1, 1, 1, 1, 1, 1, ctrlEmpty] (by decide +kernel)
    have hlaid : t.shape.Laid := ((FunnelShape.fromSlots_spec hw.planned).2.2 hn).1
    exact ⟨t, hwalked, (searchVacancy_agrees hw.planned hn).1 fun slot hslot _ => hmiss slot (walk_lt hlaid hslot)⟩
  · obtain ⟨t, hw, hn, hwalked, -, hclean⟩ := exists_walks filled 100
      [1, 1, 1, 1, 1, 1, 1, 1, ctrlEmpty] (by decide +kernel)
    refine ⟨t, hwalked, (searchVacancy_agrees hw.planned hn).2 fun slot hslot htombstone => ?_⟩
    have hnone := List.countP_eq_zero.mp hclean slot (List.mem_range.mpr (hw.capacity ▸ hslot))
    exact hnone (decide_eq_true htombstone)

end Walked

/-- The masked lookup hits what the exact search hits: on any control bytes when every level bit is set, and in
every table that was reached without an exceptional placement under the mask of the key's bin. -/
theorem maskedLookup_agrees :
    (∀ {σ : Type} (t : FunnelTable K V) (r : ReserveFraction) (inspect : Nat → Exec Panic σ Bool) (x : UInt64)
      (cleanEpoch : Bool), FunnelShape.fromSlots t.shape.n r = .ok t.shape → t.shape.n ≠ 0 →
      t.lookupRecordedLevels group inspect (prepareFunnel t.probeSeed x) (controlFingerprint x) 0xFFFF =
        SearchResult.hit? <$>
          t.searchExactMode group inspect cleanEpoch (prepareFunnel t.probeSeed x) (controlFingerprint x)) ∧
    (u.Calm → u.Lawful hash eqv → u.Copying eqv copyKey copyValue → ∀ t : FunnelTable K V,
      Reachable (Funnel.backend group u) u (Initial group u) (fun e => e.2.1.Plain eqv) t →
      t.exceptionalPlacement = false → t.shape.n ≠ 0 → ∀ (key : K) (cleanEpoch : Bool), ∃ r, ∀ w : World W K V,
        wp (t.lookupRecordedLevels group (inspectKey u key) (prepareFunnel t.probeSeed (hash key))
            (controlFingerprint (hash key)) (t.membershipGate (hash key)).levels)
          (fun r' s => s.1 = t ∧ r' = r) (fun _ _ => False) (t, w) ∧
        wp (t.searchExactMode group (inspectKey u key) cleanEpoch (prepareFunnel t.probeSeed (hash key))
            (controlFingerprint (hash key)))
          (fun r' s => s.1 = t ∧ r'.hit? = r) (fun _ _ => False) (t, w)) := by
  constructor
  · intro σ t r inspect x cleanEpoch hshape hn
    exact lookupRecordedLevels_all hshape hn _ (isOccupied_controlFingerprint x) cleanEpoch
  · intro hcalm hl hcopy t ht hexceptional hn key cleanEpoch
    have hs := ht.stores (contract group u) (fun _ h => h.fresh) hcalm.hashOne hl hcopy fun _ he => he.fitting hl _
    obtain ⟨r, hr⟩ := exists_seeks eqv t key
    refine ⟨r, fun w => ⟨?_, ?_⟩⟩
    · refine wp_mono (wp_lookup_seeks hl hs hexceptional hn) ?_ (fun _ _ h => h hcalm)
      exact fun r' s h => ⟨h.1, h.2.unique hl hs hr⟩
    · refine wp_mono (wp_exact_seeks hl hs hexceptional hn cleanEpoch) ?_ (fun _ _ h => h hcalm)
      exact fun r' s h => ⟨h.1, h.2.unique hl hs hr⟩

/-- A hit and a miss in the table of one entry. -/
theorem maskedLookup_agrees_insert : ∀ key : UInt64, ∃ r, ∀ w : World Unit UInt64 Nat,
    wp (FunnelTable.stored.lookupRecordedLevels .scalar (inspectKey User.sample key)
        (prepareFunnel FunnelTable.stored.probeSeed key) (controlFingerprint key)
        (FunnelTable.stored.membershipGate key).levels)
      (fun r' s => s.1 = FunnelTable.stored ∧ r' = r) (fun _ _ => False) (FunnelTable.stored, w) ∧
    wp (FunnelTable.stored.searchExactMode .scalar (inspectKey User.sample key) false
        (prepareFunnel FunnelTable.stored.probeSeed key) (controlFingerprint key))
      (fun r' s => s.1 = FunnelTable.stored ∧ r'.hit? = r) (fun _ _ => False) (FunnelTable.stored, w) := by
  intro key
  obtain ⟨ht, -⟩ := stored_of_start (A := fun e => e.2.1.Plain (· == ·)) fun _ => ⟨trivial, nofun, nofun⟩
  exact maskedLookup_agrees.2 User.calm_sample User.lawful_sample User.copying_sample FunnelTable.stored ht
    (by decide +kernel) (by decide +kernel) key false

end Opthash.Funnel
