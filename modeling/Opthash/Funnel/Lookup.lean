import Opthash.Funnel.Invariant

namespace Opthash.Funnel.FunnelTable

open Exec Probe Probing

variable {W K V : Type} {group : GroupBackend} {u : User W K V} {t : FunnelTable K V} {key : K}
  {x : UInt64} {ledger : Ledger K V} {J : W → Prop}

def Matches (u : User W K V) (t : FunnelTable K V) (key : K) (slot : Nat) (answer : Bool) : Prop :=
  ∃ e, t.storage.Holds slot e ∧ u.Answers key e.1 answer

def Refuted (u : User W K V) (t : FunnelTable K V) (key : K) (x : UInt64) : Prop :=
  ∀ slot e, t.storage.Holds slot e → t.Placed True slot x → u.Answers key e.1 false

theorem Matches.answers {slot : Nat} {e : K × V} {answer : Bool} (h : Matches u t key slot answer)
    (he : t.storage.Holds slot e) : u.Answers key e.1 answer := by
  obtain ⟨e', he', hanswer⟩ := h
  rwa [he.unique he']

theorem wp_inspectKey (hw : t.Wf) (hJ : u.EqStable J) {slot : Nat} (ho : t.storage.Occ slot)
    {s : FunnelTable K V × World W K V} (hs : Looking t ledger J s) :
    wp (inspectKey u key slot) (fun b s' => Looking t ledger J s' ∧ Matches u t key slot b)
      (LookupPanic u t ledger) s := by
  obtain ⟨t', w⟩ := s
  obtain rfl : t' = t := hs.table
  obtain ⟨e, he⟩ := hw.holds ho
  rw [inspectKey, wp_bind, wp_get, wp_bind, Region.getRef, he.2.2, expect, wp_pure]
  exact wp_mono (wp_compare hJ key e.1 hs) (fun b _ h => ⟨h.1, e, he, h.2⟩) (fun _ _ => id)

theorem wp_lookup (hw : t.Wf) (hJ : u.EqStable J) {kind : Nat → Kind}
    (hkind : ∀ slot, kind slot = .candidate → t.storage.Occ slot) {w : List (Option Nat)}
    {reuse : Option Nat} {s : FunnelTable K V × World W K V} (hs : Looking t ledger J s) :
    wp (search kind (inspectKey u key) w reuse)
      (fun o s' => Looking t ledger J s' ∧ Found kind (Matches u t key) w reuse o)
      (LookupPanic u t ledger) s :=
  wp_search (fun slot _ _ hc hs' => wp_inspectKey hw hJ (hkind slot hc) hs') hs

section Kinds

variable {slot : Nat}

theorem occ_of_fingerprint (h : t.storage.ctrl slot = controlFingerprint x) : t.storage.Occ slot := by
  unfold Region.Occ
  rw [h]
  exact isOccupied_controlFingerprint x

theorem occ_of_slotKind (h : slotKind t.storage.ctrl (controlFingerprint x) slot = .candidate) :
    t.storage.Occ slot :=
  occ_of_fingerprint ((slotKind_candidate (isOccupied_controlFingerprint x)).mp h)

theorem occ_of_modeKind {cleanEpoch : Bool}
    (h : t.modeKind cleanEpoch (controlFingerprint x) slot = .candidate) : t.storage.Occ slot := by
  unfold modeKind at h
  split at h
  · exact occ_of_slotKind (x := x) (Kind.blind_eq_candidate.mp h)
  · exact occ_of_slotKind h

theorem modeKind_empty {cleanEpoch : Bool} {fingerprint : UInt8} :
    t.modeKind cleanEpoch fingerprint slot = .empty ↔ t.storage.ctrl slot = ctrlEmpty := by
  unfold modeKind
  split
  · exact Kind.blind_eq_empty.trans slotKind_empty
  · exact slotKind_empty

theorem modeKind_candidate {cleanEpoch : Bool} (h : t.storage.ctrl slot = controlFingerprint x) :
    t.modeKind cleanEpoch (controlFingerprint x) slot = .candidate := by
  have hc : slotKind t.storage.ctrl (controlFingerprint x) slot = .candidate :=
    (slotKind_candidate (isOccupied_controlFingerprint x)).mpr h
  unfold modeKind
  split
  · exact Kind.blind_eq_candidate.mpr hc
  · exact hc

theorem free_of_modeKind {cleanEpoch : Bool} {fingerprint : UInt8}
    (h : t.modeKind cleanEpoch fingerprint slot = .empty ∨
      t.modeKind cleanEpoch fingerprint slot = .deleted) : isFree (t.storage.ctrl slot) := by
  suffices h' : slotKind t.storage.ctrl fingerprint slot = .empty ∨
      slotKind t.storage.ctrl fingerprint slot = .deleted from slotKind_free.mp h'
  unfold modeKind at h
  split at h
  · rcases h with h | h
    · exact .inl (Kind.blind_eq_empty.mp h)
    · exact absurd h (Kind.blind_ne_deleted _)
  · exact h

end Kinds

theorem wp_findByFullScan (hw : t.Wf) (hJ : u.EqStable J) {s : FunnelTable K V × World W K V}
    (hs : Looking t ledger J s) :
    wp (t.findByFullScan (inspectKey u key) (controlFingerprint x))
      (fun r s' => Looking t ledger J s' ∧ match r with
        | some slot => Matches u t key slot true
        | none => Refuted u t key x)
      (LookupPanic u t ledger) s := by
  rw [findByFullScan, findFrom_eq, wp_map]
  refine wp_mono (wp_lookup hw hJ (fun slot h => occ_of_fingerprint (matchKind_candidate.mp h)) hs) ?_
    (fun _ _ => id)
  rintro o s' ⟨hs', hfound⟩
  refine ⟨hs', ?_⟩
  have hmissed : Missed (matchKind (t.storage.ctrl · = controlFingerprint x)) (Matches u t key)
      ((List.range t.shape.n).map some) → Refuted u t key x := by
    intro hm slot e he hp
    refine (hm.of_mem (by simp) ?_ hp.fingerprint).answers he
    exact List.mem_map_of_mem (List.mem_range.mpr (hw.capacity ▸ he.1))
  cases o with
  | hit slot => exact hfound.2.2
  | vacant slot => exact hmissed hfound.1
  | failed => exact hmissed hfound.1
  | exhausted => exact hmissed hfound.1

theorem wp_lookupRecordedLevels (hw : t.Wf) (hJ : u.EqStable J) (hn : t.shape.n ≠ 0)
    (hknown : t.KnownLevels (t.membershipGate x).levels) {s : FunnelTable K V × World W K V}
    (hs : Looking t ledger J s) :
    wp (t.lookupRecordedLevels group (inspectKey u key) (prepareFunnel t.probeSeed x) (controlFingerprint x)
        (t.membershipGate x).levels)
      (fun r s' => Looking t ledger J s' ∧ match r with
        | some slot => Matches u t key slot true
        | none => t.exceptionalPlacement = false → Refuted u t key x)
      (LookupPanic u t ledger) s := by
  rw [lookupRecordedLevels_eq (isOccupied_controlFingerprint x) hn hknown, wp_map]
  refine wp_mono (wp_lookup hw hJ (fun slot h => occ_of_slotKind (Kind.blind_eq_candidate.mp h)) hs) ?_
    (fun _ _ => id)
  rintro o s' ⟨hs', hfound⟩
  refine ⟨hs', ?_⟩
  have hmissed : Missed (blindKind t.storage.ctrl (controlFingerprint x)) (Matches u t key)
      (t.recordedWalk (prepareFunnel t.probeSeed x) (t.membershipGate x).levels) →
      t.exceptionalPlacement = false → Refuted u t key x := by
    intro hm hexc slot e he hp
    have hwalk := hp.reachable.resolve_left (by simp [hexc])
    refine (hm slot ?_ (blindKind_of_match (isOccupied_controlFingerprint x) hp.fingerprint)).answers he
    apply reached_recordedWalk (hw.laid hn) _ (hp.recorded trivial).gate.2
    exact Reached.mono (fun i hi => slotKind_empty.mp (Kind.blind_eq_empty.mp hi)) hwalk
  cases o with
  | hit slot => exact hfound.2.2
  | vacant slot => exact hmissed hfound.1
  | failed => exact hmissed hfound.1
  | exhausted => exact hmissed hfound.1

theorem wp_findLocation (hw : t.Wf) (hJ : u.EqStable J) {s : FunnelTable K V × World W K V}
    (hs : Looking t ledger J s) :
    wp (findLocation group u key x (controlFingerprint x))
      (fun r s' => Looking t ledger J s' ∧ match r with
        | some slot => Matches u t key slot true
        | none => Refuted u t key x)
      (LookupPanic u t ledger) s := by
  obtain ⟨t', w⟩ := s
  obtain rfl : t' = t := hs.table
  rw [findLocation, wp_bind, wp_get]
  dsimp only
  rw [wp_ite]
  refine ⟨fun hpass => ?_, fun hfail => ⟨hs, fun slot e he hp => absurd (hp.recorded trivial).gate.1 hfail⟩⟩
  obtain ⟨hn, hknown⟩ := gate_known hw x hpass
  rw [findLocationAfterGate, wp_bind, wp_get]
  dsimp only
  rw [wp_bind]
  refine wp_mono (wp_lookupRecordedLevels hw hJ hn hknown hs) ?_ (fun _ _ => id)
  rintro (_ | slot) s' ⟨hs', hr⟩
  · dsimp only
    rw [wp_ite]
    exact ⟨fun _ => wp_findByFullScan hw hJ hs', fun h => ⟨hs', hr (by simpa using h)⟩⟩
  · exact ⟨hs', hr⟩

structure VacantFor (t : FunnelTable K V) (x : UInt64) (slot : Nat) : Prop where
  lt : slot < t.shape.n
  free : isFree (t.storage.ctrl slot)
  reached : t.OnWalk x slot

/-- A miss of an exact search reports no entry, and a vacancy only on the walk. -/
def Misses (t : FunnelTable K V) (x : UInt64) : SearchResult → Prop
  | .hit _ => False
  | .vacant slot => t.VacantFor x slot
  | _ => True

theorem wp_searchExactMode (hw : t.Wf) (hJ : u.EqStable J) (hn : t.shape.n ≠ 0) (cleanEpoch : Bool)
    {s : FunnelTable K V × World W K V} (hs : Looking t ledger J s) :
    wp (t.searchExactMode group (inspectKey u key) cleanEpoch (prepareFunnel t.probeSeed x)
        (controlFingerprint x))
      (fun r s' => Looking t ledger J s' ∧
        ((∃ slot, r = .hit slot ∧ Matches u t key slot true) ∨
          Misses t x r ∧ (t.exceptionalPlacement = false → Refuted u t key x)))
      (LookupPanic u t ledger) s := by
  rw [searchExactMode_eq (isOccupied_controlFingerprint x) (hw.laid hn) hn, wp_map]
  refine wp_mono (wp_lookup hw hJ (fun slot h => occ_of_modeKind h) hs) ?_ (fun _ _ => id)
  rintro o s' ⟨hs', hfound⟩
  refine ⟨hs', ?_⟩
  have hmissed : Missed (t.modeKind cleanEpoch (controlFingerprint x)) (Matches u t key)
      (t.walk (prepareFunnel t.probeSeed x)) → t.exceptionalPlacement = false → Refuted u t key x := by
    intro hm hexc slot e he hp
    have hwalk := hp.reachable.resolve_left (by simp [hexc])
    exact (hm slot (Reached.mono (fun i hi => modeKind_empty.mp hi) hwalk)
      (modeKind_candidate hp.fingerprint)).answers he
  cases o with
  | hit slot => exact .inl ⟨slot, rfl, hfound.2.2⟩
  | vacant slot =>
    refine .inr ⟨?_, hmissed hfound.1⟩
    have hfirst := hfound.2.1
    simp only [Outcome.vacancy, Option.none_or] at hfirst
    have hreach : t.OnWalk x slot := reached_firstFree
      (fun m hm => decide_eq_true (.inl (modeKind_empty.mpr hm))) hfirst.symm
    have hfree := firstFree_free hfirst.symm
    exact ⟨walk_lt (hw.laid hn) hreach.mem, free_of_modeKind (of_decide_eq_true hfree), hreach⟩
  | failed => exact .inr ⟨trivial, hmissed hfound.1⟩
  | exhausted => exact .inr ⟨trivial, hmissed hfound.1⟩

theorem wp_scanIfExceptional {α : Type} (hw : t.Wf) (hJ : u.EqStable J) (found : Nat → α) (absent : α)
    (hrefuted : t.exceptionalPlacement = false → Refuted u t key x)
    {s : FunnelTable K V × World W K V} (hs : Looking t ledger J s) :
    wp (if t.exceptionalPlacement then do
          match ← t.findByFullScan (inspectKey u key) (controlFingerprint x) with
          | some slot => pure (found slot)
          | none => pure absent
        else pure absent)
      (fun a s' => Looking t ledger J s' ∧
        ((∃ slot, a = found slot ∧ Matches u t key slot true) ∨ a = absent ∧ Refuted u t key x))
      (LookupPanic u t ledger) s := by
  rw [wp_ite]
  refine ⟨fun _ => ?_, fun hexc => ⟨hs, .inr ⟨rfl, hrefuted (by simpa using hexc)⟩⟩⟩
  rw [wp_bind]
  refine wp_mono (wp_findByFullScan (x := x) hw hJ hs) ?_ (fun _ _ => id)
  rintro (_ | slot) s' ⟨hs', hr⟩
  · exact ⟨hs', .inr ⟨rfl, hr⟩⟩
  · exact ⟨hs', .inl ⟨slot, rfl, hr⟩⟩

theorem refuted_of_gate (h : (t.membershipGate x).passes = false) : Refuted u t key x := by
  intro slot e _ hp
  rw [(hp.recorded trivial).gate.1] at h
  cases h

/-- The slot an entry's vacancy token names lies on the key's walk. -/
def Fits (t : FunnelTable K V) (vacant : FunnelVacant) (x : UInt64) : Prop :=
  vacant.hash = x ∧ (vacant.exact ≠ FunnelVacant.unsearched → vacant.exact ≠ FunnelVacant.exhausted →
    t.VacantFor x vacant.exact)

theorem wp_locate (hw : t.Wf) (hJ : u.EqStable J) {s : FunnelTable K V × World W K V}
    (hs : Looking t ledger J s) :
    wp (locate group u key x (controlFingerprint x))
      (fun r s' => Looking t ledger J s' ∧ match r with
        | .inl slot => Matches u t key slot true
        | .inr miss => Refuted u t key x ∧ ∀ r, miss = some r → Misses t x r)
      (LookupPanic u t ledger) s := by
  obtain ⟨t', w⟩ := s
  obtain rfl : t' = t := hs.table
  rw [locate, wp_bind, wp_get]
  dsimp only
  rw [wp_ite]
  refine ⟨fun hgate => ?_, fun hgate => ?_⟩
  · exact ⟨hs, refuted_of_gate (by simpa using hgate), fun _ h => by cases h⟩
  · have hpass : (t'.membershipGate x).passes = true := by simpa using hgate
    obtain ⟨hn, -⟩ := gate_known hw x hpass
    rw [searchExactPrepared, wp_bind]
    refine wp_mono (wp_searchExactMode hw hJ hn false hs) ?_ (fun _ _ => id)
    rintro r s' ⟨hs', ⟨slot, rfl, hmatch⟩ | ⟨hmisses, hrefuted⟩⟩
    · exact ⟨hs', hmatch⟩
    · have hscan := wp_scanIfExceptional hw hJ (fun slot => (.inl slot : Nat ⊕ Option SearchResult))
        (.inr (some r)) hrefuted hs'
      have hpost : wp _ (fun (a : Nat ⊕ Option SearchResult) s' => Looking t' ledger J s' ∧ match a with
        | .inl slot => Matches u t' key slot true
        | .inr miss => Refuted u t' key x ∧ ∀ r, miss = some r → Misses t' x r)
          (LookupPanic u t' ledger) s' := wp_mono hscan
        (by
          rintro a s'' ⟨hs'', ⟨slot, rfl, hmatch⟩ | ⟨rfl, hr⟩⟩
          · exact ⟨hs'', hmatch⟩
          · exact ⟨hs'', hr, fun r' h => by cases h; exact hmisses⟩)
        (fun _ _ => id)
      cases r with
      | hit slot => exact hmisses.elim
      | vacant slot => exact hpost
      | full => exact hpost
      | rangeFailure => exact hpost

theorem wp_findForEntry (hw : t.Wf) (hJ : u.EqStable J) {s : FunnelTable K V × World W K V}
    (hs : Looking t ledger J s) :
    wp (findForEntry group u key x)
      (fun r s' => Looking t ledger J s' ∧ match r with
        | .inl slot => Matches u t key slot true
        | .inr vacant => Refuted u t key x ∧ t.Fits vacant x)
      (LookupPanic u t ledger) s := by
  rw [findForEntry, wp_bind]
  refine wp_mono (wp_locate hw hJ hs) ?_ (fun _ _ => id)
  rintro (slot | _ | miss) s' ⟨hs', hr⟩
  · exact ⟨hs', hr⟩
  · exact ⟨hs', hr.1, rfl, fun h => absurd rfl h⟩
  · have hmisses := hr.2 miss rfl
    cases miss with
    | hit slot => exact hmisses.elim
    | vacant slot => exact ⟨hs', hr.1, rfl, fun _ _ => hmisses⟩
    | full => exact ⟨hs', hr.1, rfl, fun _ h => absurd rfl h⟩
    | rangeFailure => exact ⟨hs', hr.1, rfl, fun _ h => absurd rfl h⟩

theorem wp_searchForInsert (hw : t.Wf) (hJ : u.EqStable J) {s : FunnelTable K V × World W K V}
    (hs : Looking t ledger J s) :
    wp (searchForInsert group u key x)
      (fun r s' => Looking t ledger J s' ∧ match r with
        | .hit slot => Matches u t key slot true
        | .absent exact => Refuted u t key x ∧ ∀ r, exact = some r → Misses t x r)
      (LookupPanic u t ledger) s := by
  obtain ⟨t', w⟩ := s
  obtain rfl : t' = t := hs.table
  rw [searchForInsert, wp_bind, wp_get]
  dsimp only
  rw [wp_ite]
  refine ⟨fun hpass => ?_, fun hgate => ?_⟩
  · obtain ⟨hn, -⟩ := gate_known hw x hpass
    have hmode : ∃ cleanEpoch, t'.searchExactPreparedForInsert group (inspectKey u key)
        (prepareFunnel t'.probeSeed x) (controlFingerprint x) =
        t'.searchExactMode group (inspectKey u key) cleanEpoch (prepareFunnel t'.probeSeed x)
          (controlFingerprint x) := by
      rw [searchExactPreparedForInsert]
      split
      · exact ⟨true, rfl⟩
      · exact ⟨false, rfl⟩
    obtain ⟨cleanEpoch, hmode⟩ := hmode
    rw [hmode, wp_bind]
    refine wp_mono (wp_searchExactMode hw hJ hn cleanEpoch hs) ?_ (fun _ _ => id)
    rintro r s' ⟨hs', ⟨slot, rfl, hmatch⟩ | ⟨hmisses, hrefuted⟩⟩
    · exact ⟨hs', hmatch⟩
    · have hscan := wp_scanIfExceptional hw hJ InsertSearch.hit (.absent (some r)) hrefuted hs'
      have hpost : wp _ (fun (a : InsertSearch) s' => Looking t' ledger J s' ∧ match a with
        | .hit slot => Matches u t' key slot true
        | .absent exact => Refuted u t' key x ∧ ∀ r, exact = some r → Misses t' x r)
          (LookupPanic u t' ledger) s' := wp_mono hscan
        (by
          rintro a s'' ⟨hs'', ⟨slot, rfl, hmatch⟩ | ⟨rfl, hr⟩⟩
          · exact ⟨hs'', hmatch⟩
          · exact ⟨hs'', hr, fun r' h => by cases h; exact hmisses⟩)
        (fun _ _ => id)
      cases r with
      | hit slot => exact hmisses.elim
      | vacant slot => exact hpost
      | full => exact hpost
      | rangeFailure => exact hpost
  · exact ⟨hs, refuted_of_gate (by simpa using hgate), fun _ h => by cases h⟩

end Opthash.Funnel.FunnelTable
