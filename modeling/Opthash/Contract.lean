import Opthash.Calls
import Opthash.Map

namespace Opthash

open Ledger

structure Reading (T Location Vacant Scan K V : Type) where
  Wf : T → Prop
  Counted : T → Prop
  /-- Every slot is EMPTY. -/
  Blank : T → Prop
  /-- No cleanup and no refresh of the filter is due. -/
  Settled : T → Prop
  len : T → Nat
  /-- The insertion limit. -/
  capacity : T → Nat
  /-- The entry at an occupied location. -/
  Holds : T → Location → K × V → Prop
  /-- A search for the hash comes to the location, if it is `filtered` also through the filter. -/
  Placed : (filtered : Prop) → T → Location → UInt64 → Prop
  /-- The token is what a search for the hash reports of a table without the key. -/
  Fits : T → Vacant → UInt64 → Prop
  entries : T → List (K × V)
  /-- The locations a scan still visits. -/
  Scanning : T → Scan → List Location → Prop
  /-- Tables that differ at one location at most. -/
  Undisturbed : T → Location → T → Prop
  /-- A delete at the location leaves a refresh of the filter to do. -/
  RefreshesAfter : T → Location → Prop
  /-- Deferred deletes left a refresh of the filter to do. -/
  RefreshesDeferred : T → Prop

namespace Reading

variable {T Location Vacant Scan W K V : Type} (R : Reading T Location Vacant Scan K V) (u : User W K V)

def Sound (filtered : Prop) (t : T) : Prop :=
  (filtered → u.Deterministic) → ∀ loc e, R.Holds t loc e → ∃ x, u.Hashes e.1 x ∧ R.Placed filtered t loc x

/-- Every entry placed under the hash has answered that it is not the key's. -/
def Refuted (t : T) (key : K) (hash : UInt64) : Prop :=
  ∀ loc e, R.Holds t loc e → R.Placed True t loc hash → u.Answers key e.1 false

structure Keeps (t t' : T) : Prop where
  wf : R.Wf t'
  counted : R.Counted t → R.Counted t'
  sound : ∀ {q : Prop}, R.Sound u q t → R.Sound u q t'

structure Steady (t t' : T) : Prop extends R.Keeps u t t' where
  capacity : R.capacity t' = R.capacity t
  settled : R.Counted t → R.Settled t → R.Settled t'

structure Grows (t t' : T) : Prop where
  below : R.len t < R.capacity t → R.capacity t' = R.capacity t
  reached : R.len t = R.capacity t → R.capacity t < R.capacity t'

structure Added (t t' : T) (k : K) (v : V) (x : UInt64) : Prop where
  wf : R.Wf t'
  counted : R.Counted t → R.Counted t'
  sound : ∀ {q : Prop}, R.Sound u q t → u.Hashes k x → R.Sound u q t'
  entries : (R.entries t').Perm ((k, v) :: R.entries t)
  grows : R.Grows t t'
  settled : R.Counted t → R.Settled t → R.Settled t'

structure Replaced (t t' : T) (k : K) (v old : V) : Prop where
  keeps : R.Steady u t t'
  entries : ∃ k' rest, u.Answers k k' true ∧ (R.entries t).Perm ((k', old) :: rest) ∧
    (R.entries t').Perm ((k', v) :: rest)

structure Rearranged (t t' : T) : Prop where
  keeps : R.Keeps u t t'
  entries : (R.entries t').Perm (R.entries t)

/-- The same entries, with maintenance due only where it was before. -/
structure Reordered (t t' : T) : Prop extends R.Rearranged u t t' where
  settled : R.Counted t → R.Settled t → R.Settled t'

/-- The same entries, in a larger table only where the insertion limit was reached. -/
structure Stretched (t t' : T) : Prop extends R.Reordered u t t' where
  below : R.len t < R.capacity t → R.capacity t' = R.capacity t
  reached : R.len t = R.capacity t → R.capacity t ≤ R.capacity t'

structure Mended (t t' : T) : Prop extends R.Rearranged u t t' where
  capacity : R.capacity t' = R.capacity t
  settled : R.Settled t'

structure Refitted (needed : Nat) (t t' : T) : Prop extends R.Rearranged u t t' where
  capacity : needed ≤ R.capacity t'
  settled : R.Settled t'

structure Readied (t t' : T) : Prop extends R.Reordered u t t' where
  grows : R.Grows t t'
  room : R.len t' < R.capacity t'

/-- What a settling of deletes leaves when it unwinds; only through the filter
can a refresh that the hasher interrupts be unsound. -/
structure Unsettled (t t' : T) (code : W) (refreshes : Prop) : Prop where
  wf : R.Wf t'
  counted : R.Counted t → R.Counted t'
  capacity : R.capacity t' = R.capacity t
  entries : (R.entries t').Perm (R.entries t)
  sound : ∀ {q : Prop}, R.Sound u q t → R.Sound u q t' ∨ q ∧ refreshes ∧ ¬u.CalmFor (R.entries t).length code

variable {R u}

theorem Keeps.trans {t t' t'' : T} (h : R.Keeps u t t') (h' : R.Keeps u t' t'') : R.Keeps u t t'' :=
  ⟨h'.wf, fun hc => h'.counted (h.counted hc), fun hs => h'.sound (h.sound hs)⟩

theorem Keeps.refl {t : T} (h : R.Wf t) : R.Keeps u t t := ⟨h, id, id⟩

theorem Rearranged.refl {t : T} (h : R.Wf t) : R.Rearranged u t t := ⟨.refl h, .refl _⟩

theorem Rearranged.trans {t t' t'' : T} (h : R.Rearranged u t t') (h' : R.Rearranged u t' t'') :
    R.Rearranged u t t'' := ⟨h.keeps.trans h'.keeps, h'.entries.trans h.entries⟩

theorem Reordered.refl {t : T} (h : R.Wf t) : R.Reordered u t t := ⟨.refl h, fun _ => id⟩

theorem Stretched.refl {t : T} (h : R.Wf t) : R.Stretched u t t := ⟨.refl h, fun _ => rfl, fun _ => Nat.le_refl _⟩

theorem Steady.refl {t : T} (h : R.Wf t) : R.Steady u t t := ⟨.refl h, rfl, fun _ => id⟩

theorem Steady.trans {t t' t'' : T} (h : R.Steady u t t') (h' : R.Steady u t' t'') : R.Steady u t t'' :=
  ⟨h.toKeeps.trans h'.toKeeps, h'.capacity.trans h.capacity,
    fun hc hs => h'.settled (h.counted hc) (h.settled hc hs)⟩

theorem Refitted.reordered {needed : Nat} {t t' : T} (h : R.Refitted u needed t t') : R.Reordered u t t' :=
  ⟨h.toRearranged, fun _ _ => h.settled⟩

theorem Readied.refl {t : T} (h : R.Wf t) (hroom : R.len t < R.capacity t) : R.Readied u t t :=
  ⟨.refl h, ⟨fun _ => rfl, fun hfull => absurd hfull (Nat.ne_of_lt hroom)⟩, hroom⟩

theorem Readied.stretched {t t' : T} (h : R.Readied u t t') : R.Stretched u t t' :=
  ⟨h.toReordered, h.grows.below, fun hfull => Nat.le_of_lt (h.grows.reached hfull)⟩

theorem Readied.trans {t t' t'' : T} (h : R.Readied u t t') (h' : R.Readied u t' t'') : R.Readied u t t'' := by
  have hsame := h'.grows.below h.room
  refine ⟨⟨h.toRearranged.trans h'.toRearranged, fun hc hs => h'.settled (h.keeps.counted hc) (h.settled hc hs)⟩,
    ⟨fun hlt => hsame.trans (h.grows.below hlt), fun hfull => ?_⟩, h'.room⟩
  rw [hsame]
  exact h.grows.reached hfull

theorem Readied.added {t t' t'' : T} {k : K} {v : V} {x : UInt64} (h : R.Readied u t t')
    (h' : R.Added u t' t'' k v x) : R.Added u t t'' k v x := by
  have hsame := h'.grows.below h.room
  refine ⟨h'.wf, fun hc => h'.counted (h.keeps.counted hc), fun hs hx => h'.sound (h.keeps.sound hs) hx,
    h'.entries.trans (h.entries.cons _), ⟨fun hlt => hsame.trans (h.grows.below hlt), fun hfull => ?_⟩,
    fun hc hs => h'.settled (h.keeps.counted hc) (h.settled hc hs)⟩
  rw [hsame]
  exact h.grows.reached hfull

end Reading

def Halted {W K V : Type} (u : User W K V) (e : Panic) : Prop := u.Unwound e ∨ e.Exhausted

namespace Halted

variable {W K V : Type} {u : User W K V} {e : Panic}

theorem blamed (h : Halted u e) : e.Blamed (¬u.Calm) := by
  rcases h with h | h
  · exact h.blamed
  · exact .exhausted h

theorem ne_abort (h : Halted u e) : e ≠ .abort := by
  rcases h with h | h
  · exact h.ne_abort
  · exact h.ne_abort

end Halted

section Growing

variable {T Location Vacant Scan W K V : Type} (R : Reading T Location Vacant Scan K V) (u : User W K V)

/-- How growth unwinds: in the hasher or for want of memory, with the table as it was. -/
def Refused (t : T) (ledger : Ledger K V) (e : Panic) (s : T × World W K V) : Prop :=
  Halted u e ∧ s.1 = t ∧ s.2.ledger = ledger

def Regrown (t : T) (ledger : Ledger K V) (e : Panic) (s : T × World W K V) : Prop :=
  Halted u e ∧ R.Stretched u t s.1 ∧ s.2.ledger = ledger

def NotPlaced (κ : K ⊕ V → Nat) (t : T) (k : K) (v : V) (w : World W K V) (e : Panic) (s : T × World W K V) : Prop :=
  e.Blamed (¬u.Calm) ∧ (e ≠ .abort →
    R.Stretched u t s.1 ∧ User.Dropped κ (weighEntry κ (k, v)) w s.2)

/-- What an insert leaves when it unwinds: the entries as they were, or the value replaced. Only the insert of an
absent key asks for memory. -/
def InsertPanic (κ : K ⊕ V → Nat) (t : T) (k : K) (v : V) (w : World W K V) (absent : Prop) (e : Panic)
    (s : T × World W K V) : Prop :=
  e.Blamed (¬u.Calm) ∧ (e.Exhausted → absent) ∧ (e ≠ .abort →
    R.Stretched u t s.1 ∧ User.Dropped κ (weighEntry κ (k, v)) w s.2 ∨
    ∃ old, R.Replaced u t s.1 k v old ∧ User.Dropped κ (weighEntry κ (k, old)) w s.2)

variable {R u} {κ : K ⊕ V → Nat} {t t₁ : T} {k : K} {v : V} {w : World W K V}

theorem Refused.regrown {ledger : Ledger K V} {e : Panic} {s : T × World W K V} (h : Refused u t₁ ledger e s)
    (h₁ : R.Stretched u t t₁) : Regrown R u t ledger e s := ⟨h.1, h.2.1 ▸ h₁, h.2.2⟩

theorem notPlaced_abort (h : ¬u.Calm) (s : T × World W K V) : NotPlaced R u κ t k v w .abort s :=
  ⟨.abort h, fun h => absurd rfl h⟩

theorem NotPlaced.insertPanic {absent : Prop} {e : Panic} {s : T × World W K V} (h : NotPlaced R u κ t k v w e s)
    (habsent : e.Exhausted → absent) : InsertPanic R u κ t k v w absent e s :=
  ⟨h.1, habsent, fun hne => .inl (h.2 hne)⟩

theorem wp_owned_regrow {α : Type} {s : T × World W K V} {c : Run T W K V α} {Q : α → T × World W K V → Prop}
    (h : Exec.wp c Q (Regrown R u t w.ledger) s) : Exec.wp (u.owned k v c) Q (NotPlaced R u κ t k v w) s := by
  apply User.wp_owned (κ := κ) (fun h s => notPlaced_abort h s)
  refine Exec.wp_mono h (fun _ _ => id) ?_
  rintro e s' ⟨he, hs, hledger⟩
  refine ⟨fun h => absurd h he.ne_abort, fun _ w' hw' => ⟨he.blamed, fun _ => ⟨hs, ?_, ?_⟩⟩⟩
  · rw [hw'.gone, hledger]
  · rw [hw'.made, hledger]

theorem wp_owned_grow {α : Type} {s : T × World W K V} {c : Run T W K V α} {Q : α → T × World W K V → Prop}
    (h₁ : R.Stretched u t t₁) (h : Exec.wp c Q (Refused u t₁ w.ledger) s) :
    Exec.wp (u.owned k v c) Q (NotPlaced R u κ t k v w) s :=
  wp_owned_regrow (Exec.wp_mono h (fun _ _ => id) fun _ _ h => h.regrown h₁)

theorem wp_owned_search {α : Type} {c : Run T W K V α} {Q : α → T × World W K V → Prop} (hw : R.Wf t)
    (h : Exec.wp c Q (LookupPanic u t w.ledger) (t, w)) :
    Exec.wp (u.owned k v c) Q (NotPlaced R u κ t k v w) (t, w) :=
  wp_owned_grow (.refl hw) (Exec.wp_mono h (fun _ _ => id) fun _ _ h => ⟨.inl h.1, h.2⟩)

theorem wp_owned_insertSearch {α : Type} {absent : Prop} {c : Run T W K V α} {Q : α → T × World W K V → Prop}
    (hw : R.Wf t) (h : Exec.wp c Q (LookupPanic u t w.ledger) (t, w)) :
    Exec.wp (u.owned k v c) Q (InsertPanic R u κ t k v w absent) (t, w) := by
  have habort : ¬u.Calm → ∀ s, InsertPanic R u κ t k v w absent .abort s :=
    fun hu s => (notPlaced_abort hu s).insertPanic fun h => absurd rfl h.ne_abort
  refine User.wp_owned (κ := κ) habort (Exec.wp_mono h (fun _ _ => id) ?_)
  rintro e ⟨t', w'⟩ ⟨he, ht, hledger⟩
  obtain rfl : t' = t := ht
  refine ⟨fun h => absurd h he.ne_abort, fun _ w'' hw'' => ?_⟩
  refine NotPlaced.insertPanic ⟨he.blamed, fun _ => ⟨.refl hw, ?_⟩⟩ fun hexhausted => absurd he.1 hexhausted.ne_user
  exact ⟨by rw [hw''.gone, hledger], by rw [hw''.made, hledger]⟩

end Growing

section Methods

variable {W K V : Type} {b : TableBackend W K V}
  (R : Reading b.Table b.Location b.Vacant b.Scan K V) (u : User W K V)

/-- The specification of the methods a map shell calls, for any user code. -/
structure Contract : Prop where
  mem_entries : ∀ {t e}, R.Wf t → (e ∈ R.entries t ↔ ∃ loc, R.Holds t loc e)
  slotRef : ∀ {t loc e}, R.Holds t loc e → b.slotRef t loc = some e
  len_eq : ∀ t, b.len t = R.len t
  capacity_eq : ∀ t, b.capacity t = R.capacity t
  limit : ∀ {t}, R.Wf t → R.len t ≤ R.capacity t
  capacity_lt : ∀ {t}, R.Wf t → R.capacity t < usizeMax
  len_le : ∀ {t}, R.Wf t → (R.entries t).length ≤ R.len t
  len : ∀ {t}, R.Counted t → R.len t = (R.entries t).length
  find : ∀ {t} (J : W → Prop), u.EqStable J → R.Wf t → ∀ k x (w : World W K V), J w.code →
    Exec.wp (b.find k x)
      (fun r s => s.1 = t ∧ s.2.ledger = w.ledger ∧ J s.2.code ∧ match r with
        | some loc => ∃ e, R.Holds t loc e ∧ u.Answers k e.1 true
        | none => R.Refuted u t k x)
      (fun e s => u.Unwound e ∧ s.1 = t ∧ s.2.ledger = w.ledger) (t, w)
  findForEntry : ∀ {t}, R.Wf t → ∀ k x (w : World W K V),
    Exec.wp (b.findForEntry k x)
      (fun r s => s.1 = t ∧ s.2.ledger = w.ledger ∧ match r with
        | .inl loc => ∃ e, R.Holds t loc e ∧ u.Answers k e.1 true
        | .inr vacant => R.Refuted u t k x ∧ R.Fits t vacant x)
      (fun e s => u.Unwound e ∧ s.1 = t ∧ s.2.ledger = w.ledger) (t, w)
  insertForVacant : ∀ {t vacant x}, R.Wf t → R.Fits t vacant x → ∀ κ k v (w : World W K V),
    Exec.wp (b.insertForVacant k v vacant)
      (fun loc s => R.Added u t s.1 k v x ∧ R.Holds s.1 loc (k, v) ∧ s.2.ledger = w.ledger)
      (fun e s => e.Blamed (¬u.Calm) ∧ (e ≠ .abort →
        R.Stretched u t s.1 ∧ User.Dropped κ (weighEntry κ (k, v)) w s.2)) (t, w)
  insert : ∀ {t}, R.Wf t → ∀ κ k v x (w : World W K V),
    Exec.wp (b.insert k v x)
      (fun r s => match r with
        | some old => R.Replaced u t s.1 k v old ∧ User.Dropped κ (κ (.inl k)) w s.2
        | none => R.Refuted u t k x ∧ R.Added u t s.1 k v x ∧ s.2.ledger = w.ledger)
      (InsertPanic R u κ t k v w (R.Refuted u t k x)) (t, w)
  remove : ∀ {t loc e}, R.Wf t → R.Holds t loc e → ∀ κ (w : World W K V),
    Exec.wp (b.remove loc)
      (fun e' s => e' = e ∧ R.Steady u t s.1 ∧ (R.entries t).Perm (e :: R.entries s.1) ∧
        s.2.ledger = w.ledger)
      (fun p s => p.Blamed (¬u.Calm) ∧ (p ≠ .abort →
        (R.entries t).Perm (e :: R.entries s.1) ∧
        (∃ t₁, R.Keeps u t t₁ ∧ R.capacity t₁ = R.capacity t ∧ (R.entries t).Perm (e :: R.entries t₁) ∧
          R.Unsettled u t₁ s.1 w.code (R.RefreshesAfter t loc)) ∧
        User.Dropped κ (weighEntry κ e) w s.2)) (t, w)
  writeValue : ∀ {t loc e} (v : V), R.Wf t → R.Holds t loc e →
    R.Steady u t (b.writeValue loc e.1 v t) ∧
    (∃ rest, (R.entries t).Perm (e :: rest) ∧
      (R.entries (b.writeValue loc e.1 v t)).Perm ((e.1, v) :: rest)) ∧
    R.Holds (b.writeValue loc e.1 v t) loc (e.1, v) ∧ R.Undisturbed t loc (b.writeValue loc e.1 v t)
  extractFinish : ∀ {t loc e}, R.Wf t → R.Holds t loc e →
    R.Keeps u t (b.extractFinish loc t) ∧ R.capacity (b.extractFinish loc t) = R.capacity t ∧
    (R.entries t).Perm (e :: R.entries (b.extractFinish loc t)) ∧ R.Undisturbed t loc (b.extractFinish loc t)
  tombstoneSlot : ∀ {t loc e}, R.Wf t → R.Holds t loc e →
    R.Wf (b.tombstoneSlot loc t) ∧ R.capacity (b.tombstoneSlot loc t) = R.capacity t ∧
    (∀ {q : Prop}, R.Sound u q t → R.Sound u q (b.tombstoneSlot loc t)) ∧
    (R.entries t).Perm (e :: R.entries (b.tombstoneSlot loc t)) ∧
    R.Undisturbed t loc (b.tombstoneSlot loc t)
  undisturbed_refl : ∀ {t} loc, R.Undisturbed t loc t
  undisturbed_trans : ∀ {t t' t'' loc}, R.Undisturbed t loc t' → R.Undisturbed t' loc t'' → R.Undisturbed t loc t''
  undisturbed : ∀ {t t' loc loc' e}, R.Undisturbed t loc t' → loc' ≠ loc → R.Holds t loc' e →
    R.Holds t' loc' e
  totalSlots : ∀ {t t' loc}, R.Undisturbed t loc t' → b.totalSlots t' = b.totalSlots t
  finishDeferredRemovals : ∀ {t}, R.Wf t → ∀ w : World W K V,
    Exec.wp b.finishDeferredRemovals
      (fun _ s => R.Mended u t s.1 ∧ b.totalSlots s.1 = b.totalSlots t ∧ s.2.ledger = w.ledger)
      (fun e s => Halted u e ∧ R.Unsettled u t s.1 w.code (R.RefreshesDeferred t) ∧
        b.totalSlots s.1 = b.totalSlots t ∧ s.2.ledger = w.ledger) (t, w)
  scan : ∀ {t}, R.Wf t → ∃ locs es, R.Scanning t (b.scan t) locs ∧ locs.Nodup ∧
    List.Forall₂ (R.Holds t) locs es ∧ R.entries t = es ∧ locs.length ≤ b.totalSlots t
  scanNext_nil : ∀ {t scan}, R.Wf t → R.Scanning t scan [] →
    ∃ scan', b.scanNext t scan = (none, scan') ∧ R.Scanning t scan' []
  scanNext_cons : ∀ {t scan loc locs}, R.Wf t → R.Scanning t scan (loc :: locs) →
    ∃ scan', b.scanNext t scan = (some loc, scan') ∧
      ∀ t', R.Wf t' → R.Undisturbed t loc t' → R.Scanning t' scan' locs
  resize : ∀ {t needed newCapacity}, R.Wf t → R.len t ≤ needed →
    b.growCapacityFor t needed = some newCapacity → ∀ w : World W K V,
    Exec.wp (b.resize newCapacity)
      (fun _ s => R.Refitted u needed t s.1 ∧ s.2.ledger = w.ledger)
      (fun e s => Halted u e ∧ s.1 = t ∧ s.2.ledger = w.ledger) (t, w)
  tryResize : ∀ {t needed newCapacity}, R.Wf t → R.len t ≤ needed →
    b.growCapacityFor t needed = some newCapacity → ∀ w : World W K V,
    Exec.wp (b.tryResize newCapacity)
      (fun r s => (match r with
        | .ok _ => R.Refitted u needed t s.1
        | .error _ => s.1 = t) ∧ s.2.ledger = w.ledger)
      (fun e s => u.Unwound e ∧ s.1 = t ∧ s.2.ledger = w.ledger) (t, w)
  shrinkTo : ∀ {t}, R.Wf t → ∀ (minCapacity : Nat) (w : World W K V),
    Exec.wp (b.shrinkTo minCapacity)
      (fun _ s => R.Rearranged u t s.1 ∧ (R.Settled t → R.Settled s.1) ∧ s.2.ledger = w.ledger)
      (fun e s => Halted u e ∧ s.1 = t ∧ s.2.ledger = w.ledger) (t, w)
  clear : ∀ {t}, R.Wf t → ∀ κ (w : World W K V),
    Exec.wp b.clear
      (fun _ s => R.Steady u t s.1 ∧ R.entries s.1 = [] ∧ R.Blank s.1 ∧
        Drained u κ (weighEntries κ (R.entries t)) w s.2)
      (fun e s => User.Burst u e ∧ (e ≠ .abort → R.Keeps u t s.1 ∧ R.capacity s.1 = R.capacity t ∧
        ∃ taken, (R.entries t).Perm (taken ++ R.entries s.1) ∧
          User.Dropped κ (weighEntries κ taken) w s.2)) (t, w)
  wipeAll : ∀ {t}, R.Wf t → R.Wf (b.wipeAll t) ∧ R.capacity (b.wipeAll t) = R.capacity t ∧
    R.Counted (b.wipeAll t) ∧ R.Settled (b.wipeAll t) ∧ R.entries (b.wipeAll t) = []
  cloneTable : ∀ {t}, R.Wf t → ∀ κ (w : World W K V),
    Exec.wp (b.cloneTable t)
      (fun t' w' => R.Wf t' ∧ R.capacity t' = R.capacity t ∧ (R.Counted t → R.Counted t') ∧
        (R.Settled t → R.Settled t') ∧ (∀ {q : Prop}, R.Sound u q t → u.ClonesHash → R.Sound u q t') ∧
        List.Forall₂ u.Clones (R.entries t) (R.entries t') ∧
        w'.ledger.gone κ = w.ledger.gone κ ∧
        w'.ledger.made κ = w.ledger.made κ + weighEntries κ (R.entries t'))
      (fun e w' => e.Blamed (¬u.Calm) ∧ (e ≠ .abort → ∃ made,
        w'.ledger.made κ = w.ledger.made κ + made ∧ w'.ledger.gone κ ≤ w.ledger.gone κ + made ∧
        (u.needsDrop = true → w'.ledger.gone κ = w.ledger.gone κ + made))) w
  dropTable : ∀ {t}, R.Wf t → ∀ κ (w : World W K V),
    Exec.wp (b.dropTable t) (fun _ w' => Drained u κ (weighEntries κ (R.entries t)) w w')
      (fun e w' => User.Burst u e ∧ (e ≠ .abort →
        Drained u κ (weighEntries κ (R.entries t)) w w')) w

end Methods

end Opthash
