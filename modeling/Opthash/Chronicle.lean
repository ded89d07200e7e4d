import Opthash.Lifecycle

namespace Opthash

/-- What a call does to the entries of an epoch: a new key, a deleted entry, or the start of the next epoch. -/
inductive Beat
  | insert
  | delete
  | boundary
  deriving DecidableEq, Repr

/-- The beats of a call in the order they come: what it deletes, the epochs its maintenance or its growth starts, and
what it inserts. -/
def callBeats (deletes boundaries inserts : Nat) : List Beat :=
  List.replicate deletes .delete ++ List.replicate boundaries .boundary ++ List.replicate inserts .insert

@[simp] theorem count_delete_callBeats (d k i : Nat) : (callBeats d k i).count .delete = d := by
  simp [callBeats, List.count_replicate]

@[simp] theorem count_insert_callBeats (d k i : Nat) : (callBeats d k i).count .insert = i := by
  simp [callBeats, List.count_replicate]

/-- The fields of a record that the beats move. -/
structure EpochView where
  generation : Nat
  deletions : Nat
  hadDelete : Bool
  deriving DecidableEq, Repr

def EpochRecord.view (r : EpochRecord) : EpochView := ⟨r.generation, r.deletions, r.hadDelete⟩

def EpochState.view (e : EpochState) : EpochView := e.decode.view

namespace EpochView

variable (v : EpochView)

def after : Beat → EpochView
  | .insert => v
  | .delete => ⟨v.generation, min (v.deletions + 1) usizeMax, true⟩
  | .boundary => ⟨min (v.generation + 1) u32Max, 0, false⟩

theorem generation_foldl (beats : List Beat) (hle : v.generation ≤ u32Max) :
    (beats.foldl after v).generation = min (v.generation + beats.count .boundary) u32Max := by
  induction beats generalizing v with
  | nil => exact (Nat.min_eq_left hle).symm
  | cons beat beats ih =>
    rw [List.foldl_cons]
    cases beat with
    | boundary =>
      rw [ih _ (Nat.min_le_right ..), List.count_cons_self]
      change min (min (v.generation + 1) u32Max + _) _ = _
      omega
    | insert =>
      rw [List.count_cons_of_ne (by decide)]
      exact ih v hle
    | delete =>
      rw [List.count_cons_of_ne (by decide)]
      exact ih (v.after .delete) hle

theorem foldl_inserts (n : Nat) : (List.replicate n Beat.insert).foldl after v = v := by
  induction n with
  | zero => rfl
  | succ n ih => exact ih

theorem foldl_callBeats (d k i : Nat) : (callBeats d k i).foldl after v =
    (List.replicate k Beat.boundary).foldl after ((List.replicate d Beat.delete).foldl after v) := by
  rw [callBeats, List.foldl_append, List.foldl_append, foldl_inserts]

theorem foldl_deletes_boundary (n : Nat) : ((List.replicate n Beat.delete).foldl after v).after .boundary =
    v.after .boundary := by
  induction n generalizing v with
  | zero => rfl
  | succ n ih => exact ih (v.after .delete)

end EpochView

namespace EpochState

variable (e : EpochState)

theorem view_noteDelete : e.noteDelete.view = e.view.after .delete := congrArg EpochRecord.view e.decode_noteDelete

theorem view_start (transition : EpochTransition) : (e.start transition).view = e.view.after .boundary :=
  congrArg EpochRecord.view (e.decode_start transition)

theorem view_notePlacementRecovery : e.notePlacementRecovery.view = e.view :=
  (congrArg EpochRecord.view e.decode_notePlacementRecovery).trans rfl

theorem view_startWithPlacementRecovery (transition : EpochTransition) :
    (e.startWithPlacementRecovery transition).view = e.view.after .boundary := by
  rw [startWithPlacementRecovery, view_start, view_notePlacementRecovery]

theorem view_startEpoch (transition : EpochTransition) (recovered : Bool) :
    (e.startEpoch transition recovered).view = e.view.after .boundary := by
  cases recovered with
  | false => exact e.view_start transition
  | true => exact e.view_startWithPlacementRecovery transition

theorem generation_view_le : e.view.generation ≤ u32Max := Nat.le_of_lt_succ e.generation_lt

end EpochState

/-- What the beats of a run add up to: the entries now and at the last boundary, and the keys inserted and the
entries deleted since. -/
structure Tally where
  entries : Nat
  present : Nat
  inserted : Nat
  deleted : Nat
  deriving DecidableEq, Repr

namespace Tally

def initial : Tally := ⟨0, 0, 0, 0⟩

variable (c : Tally)

def after : Beat → Tally
  | .insert => { c with entries := c.entries + 1, inserted := c.inserted + 1 }
  | .delete => { c with entries := c.entries - 1, deleted := c.deleted + 1 }
  | .boundary => ⟨c.entries, c.entries, 0, 0⟩

/-- The view of an epoch and its entries stand for a tally. -/
structure Shown (c : Tally) (entries : Nat) (v : EpochView) : Prop where
  entries : c.entries = entries
  deletions : v.deletions = min c.deleted usizeMax
  hadDelete : v.hadDelete = true ↔ 0 < c.deleted
  balance : c.present + c.inserted = c.entries + c.deleted

variable {c} {entries entries' : Nat} {v : EpochView}

theorem Shown.insert (h : c.Shown entries v) : (c.after .insert).Shown (entries + 1) (v.after .insert) where
  entries := congrArg (· + 1) h.entries
  deletions := h.deletions
  hadDelete := h.hadDelete
  balance := by
    have := h.balance
    change c.present + (c.inserted + 1) = c.entries + 1 + c.deleted
    omega

theorem Shown.delete (h : c.Shown (entries + 1) v) : (c.after .delete).Shown entries (v.after .delete) where
  entries := congrArg (· - 1) h.entries
  deletions := by
    have := h.deletions
    change min (v.deletions + 1) usizeMax = min (c.deleted + 1) usizeMax
    omega
  hadDelete := ⟨fun _ => Nat.succ_pos _, fun _ => rfl⟩
  balance := by
    have := h.balance
    have := h.entries
    change c.present + c.inserted = c.entries - 1 + (c.deleted + 1)
    omega

theorem Shown.boundary (h : c.Shown entries v) : (c.after .boundary).Shown entries (v.after .boundary) where
  entries := h.entries
  deletions := (Nat.zero_min _).symm
  hadDelete := ⟨nofun, fun hpos => absurd hpos (Nat.lt_irrefl 0)⟩
  balance := rfl

theorem Shown.foldl {beats : List Beat} (h : c.Shown entries v)
    (hlen : entries' + beats.count .delete = entries + beats.count .insert)
    (hapart : .insert ∉ beats ∨ .delete ∉ beats) :
    (beats.foldl after c).Shown entries' (beats.foldl EpochView.after v) := by
  induction beats generalizing c entries v with
  | nil =>
    obtain rfl : entries' = entries := hlen
    exact h
  | cons beat beats ih =>
    have hrest : .insert ∉ beats ∨ .delete ∉ beats :=
      hapart.imp (fun hnone hmem => hnone (List.mem_cons_of_mem _ hmem))
        fun hnone hmem => hnone (List.mem_cons_of_mem _ hmem)
    rw [List.foldl_cons, List.foldl_cons]
    cases beat with
    | insert =>
      rw [List.count_cons_of_ne (by decide), List.count_cons_self] at hlen
      exact ih h.insert (by omega) hrest
    | boundary =>
      rw [List.count_cons_of_ne (by decide), List.count_cons_of_ne (by decide)] at hlen
      exact ih h.boundary hlen hrest
    | delete =>
      rw [List.count_cons_self, List.count_cons_of_ne (by decide)] at hlen
      -- No key was inserted, so the entry that is deleted was there before.
      have hinserts : beats.count .insert = 0 := by
        refine List.count_eq_zero.mpr ?_
        rcases hapart with hnone | hnone
        · exact fun hmem => hnone (List.mem_cons_of_mem _ hmem)
        · exact absurd (List.mem_cons_self ..) hnone
      obtain ⟨before, rfl⟩ : ∃ before, entries = before + 1 := ⟨entries - 1, by omega⟩
      exact ih h.delete (by omega) hrest

theorem shown_initial : initial.Shown 0 EpochState.initial.view where
  entries := rfl
  deletions := rfl
  hadDelete := ⟨nofun, fun hpos => absurd hpos (Nat.lt_irrefl 0)⟩
  balance := rfl

theorem Shown.snapshot {e : EpochState} (h : c.Shown entries e.view) :
    (e.snapshot entries).distinctInsertions = saturatingUsize (c.present + c.inserted) ∧
      ((e.snapshot entries).hadDelete = true ↔ 0 < c.deleted) := by
  refine ⟨?_, h.hadDelete⟩
  have hdeletions : e.deletions = min c.deleted usizeMax := h.deletions
  have := h.balance
  have := h.entries
  change min (entries + e.deletions) usizeMax = min (c.present + c.inserted) usizeMax
  omega

end Tally

end Opthash
