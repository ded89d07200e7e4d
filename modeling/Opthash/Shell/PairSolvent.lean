import Opthash.Shell.PairRuns
import Opthash.Shell.Solvent

namespace Opthash

open Exec FiniteMap FiniteSet HashMap

/-- The table is full, and none can be had for one entry more. -/
def HashMap.Stuck {W K V : Type} {b : TableBackend W K V} (room : Room b) (t : b.Table) : Prop :=
  b.capacity t ≤ b.len t ∧ ¬room.grows t

namespace HashSet

variable {W T α : Type} {E : Panic → Prop}

section Methods

variable {b : TableBackend W T Unit} {R : Reading b.Table b.Location b.Vacant b.Scan T Unit} {u : User W T Unit}
  {room : Room b} {I : b.Table → Prop} {t : b.Table} {w : World W T Unit}

variable (hc : Contract R u) (hm : Maintains R u E room I) (hw : R.Wf t) (hi : I t)
include hm hw hi

include hc in
theorem upheld_remove (value : T) : Upheld E I (remove b u value) t w :=
  (HashMap.upheld_remove hm hw hi hc value).bind fun _ => .pure _

theorem upheld_insert (hroom : ¬Stuck room t) (value : T) : Upheld E I (insert b u value) t w := by
  refine (HashMap.upheld_insert hm.toKeeping hw hi value () fun _ hfull => ?_).bind fun _ => .pure _
  by_contra hgrows
  exact hroom ⟨hfull, hgrows⟩

include hc in
theorem upheld_getOrInsertClone {eqv : T → T → Bool} {copyKey : T → T} {copyValue : Unit → Unit}
    (hcopy : u.Copying eqv copyKey copyValue) (hroom : ¬Stuck room t) (value : T) :
    Upheld E I (getOrInsertClone b u value) t w := by
  have hE := hm.tolerates
  have hread : Reads E (searchOrClone b u value) t w fun _ => True := by
    refine .of_wp (wp_searchOrClone hc hcopy hw value) ?_ ?_
    · exact fun _ _ h => ⟨h.1, trivial⟩
    · exact fun _ _ h => ⟨hE.unwound h.1, h.2⟩
  refine (hread.guarded hE _).bind hi fun found w' _ => ?_
  rcases found with loc | ⟨made, vacant⟩
  · exact Within.bind (.aside (User.within_dropV hE ())) (fun _ => (within_slotEntry hE loc).bind fun _ => .pure _) (t, w') hi
  · refine upheld_insertForVacant hm.toKeeping hi (fun hfull => ?_)
      (fun loc => (within_slotEntry hE loc).bind fun _ => .pure _) _ _ _
    by_contra hgrows
    exact hroom ⟨hfull, hgrows⟩

end Methods

variable {b : Side → TableBackend W T Unit} {u : Side → User W T Unit}
  {R : (side : Side) → Reading (b side).Table (b side).Location (b side).Vacant (b side).Scan T Unit}
  {hash : Side → T → UInt64} {eqv : T → T → Bool} {copyKey : T → T} {copyValue : Unit → Unit} {ts : Sets b}
  {w : World W T Unit} {side : Side} {room : Room (b side)} {I : (b side).Table → Prop} {t' : (b side.other).Table}

def Beside (I : (b side).Table → Prop) (t' : (b side.other).Table) (ts : Sets b) : Prop :=
  I (ts side) ∧ ts side.other = t'

theorem within_side {c : HashMap.Step (b side) α} (h : Within E (fun s => I s.1) c) :
    Within E (fun s => Beside I t' s.1) (within b side c) := by
  rintro ⟨ts, w⟩ ⟨hi, hother⟩
  rw [wp_within]
  have hupdate : ∀ s : (b side).Table × World W T Unit, I s.1 → Beside I t' (Function.update ts side s.1) := by
    intro s hs
    refine ⟨?_, (update_other ts side s.1).trans hother⟩
    change I (Function.update ts side s.1 side)
    rwa [Function.update_self]
  exact wp_mono (h (ts side, w) hi) (fun _ s hs => hupdate s hs) fun _ s h => ⟨h.1, hupdate s h.2⟩

section Retain

variable (hc : Contract (R side.other) (u side.other)) (hm : Maintains (R side) (u side) E room I)
  (hw' : (R side.other).Wf t')

include hc hw' in
theorem within_testMembership (hE : Panic.Tolerates E) (present : Bool) (value : T) :
    Within E (fun s => Beside I t' s.1) (testMembership b u side present value) := by
  refine Within.bind ?_ fun _ => .pure _
  rintro ⟨ts, w⟩ ⟨hi, hother⟩
  rw [wp_within]
  have hsame : ∀ s : (b side.other).Table × World W T Unit, s.1 = ts side.other →
      Beside I t' (Function.update ts side.other s.1) := by
    intro s hs
    rw [hs, Function.update_eq_self]
    exact ⟨hi, hother⟩
  have hw : (R side.other).Wf (ts side.other) := by
    rw [show ts side.other = t' from hother]
    exact hw'
  refine wp_mono (wp_containsKey hc hw value) (fun _ s h => hsame s h.1) fun _ s h => ⟨hE.unwound h.1, hsame s h.2.1⟩

include hm

theorem within_nextMatchingFrom {pred : T → Both b Bool} (hpred : ∀ value, Within E (fun s => Beside I t' s.1) (pred value))
    (fuel : Nat) : Within E (fun s => Beside I t' s.2.1) (nextMatchingFrom b side pred fuel) := by
  have hE := hm.tolerates
  induction fuel with
  | zero => exact .pure _
  | succ fuel ih =>
    refine .get_bind fun s _ => ?_
    obtain ⟨x, ts, w⟩ := s
    dsimp only
    rcases (b side).scanNext (ts side) x.scan with ⟨_ | loc, scan⟩ <;> dsimp only
    · refine Within.bind (.modify fun _ => id) fun _ => ?_
      exact Within.bind (.onSnd fun _ => within_side hm.finishDeferredRemovals) fun _ => .pure _
    · refine Within.bind (.modify fun _ => id) fun _ => ?_
      refine Within.bind (.onSnd fun _ => within_side (within_slotEntry hE loc)) fun entry => ?_
      refine Within.bind (.onSnd fun _ => within_side (.modify fun _ => hm.writeValue loc _ _)) fun _ => ?_
      refine Within.bind (.onSnd fun _ => hpred entry.1) fun matched => ?_
      refine .ite (fun _ => ?_) fun _ => ih
      exact Within.bind (.onSnd fun _ => within_side (.modify fun _ => hm.extractFinish loc)) fun _ => .pure _

theorem within_dropMatching {pred : T → Both b Bool} (hpred : ∀ value, Within E (fun s => Beside I t' s.1) (pred value))
    (fuel : Nat) : Within E (fun s => Beside I t' s.2.1) (dropMatching b u side pred fuel) := by
  induction fuel with
  | zero => exact .pure _
  | succ fuel ih =>
    have hnext : Within E (fun s => Beside I t' s.2.1) (nextMatching b side pred) := by
      refine .get_bind fun s _ => ?_
      obtain ⟨x, ts, w⟩ := s
      exact .ite (fun _ => .pure _) fun _ => within_nextMatchingFrom hm hpred _
    refine hnext.bind fun found => ?_
    cases found with
    | none => exact .pure _
    | some entry =>
      exact Within.bind (.onSnd fun _ => .aside (User.within_dropEntry hm.tolerates entry)) fun _ => ih

theorem within_retain {f : T → Both b Bool} (hf : ∀ value, Within E (fun s => Beside I t' s.1) (f value)) :
    Within E (fun s => Beside I t' s.1) (retain b u side f) := by
  have hdrop : Within E (fun s => Beside I t' s.2.1) (dropExtractScan b side) := by
    refine .get_bind fun s _ => ?_
    obtain ⟨x, ts, w⟩ := s
    exact .ite (fun _ => .pure _) fun _ => .onSnd fun _ => within_side hm.finishDeferredRemovals
  refine .get_bind fun s _ => ?_
  obtain ⟨ts, w⟩ := s
  refine Within.bind (.withLocal ?_) fun p => .pure _
  refine (Within.guarded ?_ (hdrop.mono fun _ _ => hm.tolerates.abort)).bind fun _ => hdrop
  exact within_dropMatching hm (fun value => .map _ (hf value)) _

end Retain

theorem wp_within_upheld {c : HashMap.Step (b side) α} (h : Upheld E I c (ts side) w) :
    wp (within b side c) (fun _ s => I (s.1 side)) (fun p s => E p ∧ I (s.1 side)) (ts, w) := by
  have hupdate : ∀ s : (b side).Table × World W T Unit, I s.1 → I (Function.update ts side s.1 side) := by
    intro s hs
    rwa [Function.update_self]
  rw [wp_within]
  exact wp_mono h (fun _ s hs => hupdate s hs) fun _ s h => ⟨h.1, hupdate s h.2⟩

section Assign

variable (hc : ∀ side, Contract (R side) (u side)) (hl : ∀ side, (u side).Lawful (hash side) eqv)
  (hcopy : ∀ side, (u side).Copying eqv copyKey copyValue)
include hc hl hcopy

omit hcopy in
theorem wp_remove_solvent (hm : Maintains (R side) (u side) Panic.Solvent room I) (value : T)
    (hp : Proper (R side) (u side) eqv (ts side)) (hi : I (ts side)) :
    wp (within b side (remove (b side) (u side) value))
      (fun _ s => Assigned R u eqv side (fun _ => False) (listed eqv [value]) ts s.1 ∧ I (s.1 side))
      (fun p _ => p.Solvent) (ts, w) := by
  have hupheld := upheld_remove (w := w) (hc side) hm hp.stores.wf hi value
  exact wp_mono (wp_and (round_remove hc hl value hp) (wp_within_upheld hupheld)) (fun _ _ h => ⟨h.1.2, h.2⟩)
    fun _ _ h => h.2.1

section Rounds

variable {A : Set T} (hm : Maintains (R side) (u side) Panic.Solvent room I)
  (hroom : ∀ t, Proper (R side) (u side) eqv t → elements (R side) eqv t ⊆ A → ¬Stuck room t) (value : T)
  (hp : Proper (R side) (u side) eqv (ts side)) (hi : I (ts side)) (hbound : contents R eqv ts side ⊆ A)
include hm hroom hp hi hbound

theorem round_bitor_solvent :
    wp (do
        let _ ← within b side (getOrInsertClone (b side) (u side) value)
        pure () : Both b Unit)
      (fun _ s => Assigned R u eqv side (fun _ => True) (listed eqv [value]) ts s.1 ∧ I (s.1 side))
      (fun p _ => p.Solvent) (ts, w) := by
  have hupheld := upheld_getOrInsertClone (w := w) (hc side) hm hp.stores.wf hi (hcopy side) (hroom _ hp hbound) value
  have hround := round_bitor (w := w) hc hl hcopy value hp
  rw [wp_bind] at hround ⊢
  exact wp_mono (wp_and hround (wp_within_upheld hupheld)) (fun _ _ => id) fun _ _ h => h.2.1

theorem round_bitxor_solvent :
    wp (do
        let removed ← within b side (remove (b side) (u side) value)
        if removed then pure ()
        else do
          let copy ← Exec.onSnd ((u side).cloneK value)
          let _ ← within b side (insert (b side) (u side) copy)
          pure () : Both b Unit)
      (fun _ s => Assigned R u eqv side Not (listed eqv [value]) ts s.1 ∧ I (s.1 side))
      (fun p _ => p.Solvent) (ts, w) := by
  refine wp_mono (wp_and (round_bitxor hc hl hcopy value hp) ?_) (fun _ _ => id) fun _ _ h => h.2
  rw [wp_bind]
  refine wp_mono (wp_remove_solvent hc hl hm value hp hi) ?_ (fun _ _ => id)
  rintro removed ⟨ts', w'⟩ ⟨hassigned, hi'⟩
  cases removed with
  | true => exact hi'
  | false =>
    have hless : contents R eqv ts' side ⊆ contents R eqv ts side := by
      rw [hassigned.changed.eq_diff]
      exact Set.sdiff_subset
    rw [if_neg Bool.false_ne_true, wp_bind, wp_onSnd]
    refine wp_mono (User.within_cloneK Panic.tolerates_solvent value w' trivial) ?_ fun _ _ h => h.1
    intro copy w₁ _
    rw [wp_bind]
    have hupheld := upheld_insert (w := w₁) hm hassigned.proper.stores.wf hi'
      (hroom _ hassigned.proper (hless.trans hbound)) copy
    exact wp_mono (wp_within_upheld hupheld) (fun _ _ => id) fun _ _ h => h.1

end Rounds

theorem wp_assign_solvent (hm : Maintains (R side) (u side) Panic.Solvent room I)
    (hp : ∀ side, Proper (R side) (u side) eqv (ts side)) (hi : I (ts side))
    (hroom : ∀ t, Proper (R side) (u side) eqv t →
      elements (R side) eqv t ⊆ contents R eqv ts side ∪ contents R eqv ts side.other → ¬Stuck room t) (op : Assign) :
    wp (assign b u side op) (fun _ _ => True) (fun p _ => p.Solvent) (ts, w) := by
  have hretain : ∀ present, wp (retain b u side (testMembership b u side present)) (fun _ _ => True)
      (fun p _ => p.Solvent) (ts, w) := by
    intro present
    have hother := (hp side.other).stores.wf
    have hwithin := within_retain hm fun value =>
      within_testMembership (I := I) (hc side.other) hother hm.tolerates present value
    exact wp_mono (hwithin (ts, w) ⟨hi, rfl⟩) (fun _ _ _ => trivial) fun _ _ h => h.1
  cases op with
  | bitor =>
    refine wp_mono (wp_forOther (g := fun _ => True) (Z := fun p _ => p.Solvent) hc hl
      (fun value ts' w' hp' hbound hi' => ?_) hp hi)
      (fun _ _ _ => trivial) (fun _ _ => id)
    exact round_bitor_solvent hc hl hcopy hm hroom value hp' hi' hbound
  | bitand => exact hretain true
  | bitxor =>
    refine wp_mono (wp_forOther (g := Not) (Z := fun p _ => p.Solvent) hc hl
      (fun value ts' w' hp' hbound hi' => ?_) hp hi)
      (fun _ _ _ => trivial) (fun _ _ => id)
    exact round_bitxor_solvent hc hl hcopy hm hroom value hp' hi' hbound
  | sub =>
    change wp (subAssign b u side) _ _ _
    rw [subAssign, wp_bind, wp_get]
    dsimp only
    rw [wp_ite]
    constructor
    · intro _
      refine wp_mono (wp_forOther (g := fun _ => False) (Z := fun p _ => p.Solvent) hc hl
        (fun value ts' w' hp' _ hi' => ?_) hp hi)
        (fun _ _ _ => trivial) (fun _ _ => id)
      rw [wp_bind]
      exact wp_remove_solvent hc hl hm value hp' hi'
    · exact fun _ => hretain false

/-- Why an operator ran out of memory, when the hasher is total and no allocation refused: a set it could come to. -/
def Starved (R : (side : Side) → Reading (b side).Table (b side).Location (b side).Vacant (b side).Scan T Unit)
    (u : Side → User W T Unit) (eqv : T → T → Bool) (side : Side) (room : Room (b side)) (ts : Sets b) : Prop :=
  ∃ t, Proper (R side) (u side) eqv t ∧
    elements (R side) eqv t ⊆ contents R eqv ts side ∪ contents R eqv ts side.other ∧ Stuck room t

theorem wp_assign_starved (hf : Funded (R side) (u side) room I)
    (hp : ∀ side, Proper (R side) (u side) eqv (ts side)) (hi : I (ts side)) (op : Assign) :
    wp (assign b u side op) (fun _ _ => True)
      (fun p _ => p.Exhausted → (u side).Obliging (fun _ => True) → Starved R u eqv side room ts) (ts, w) := by
  have hany := wp_self (assign b u side op) (ts, w)
  by_cases hstarved : Starved R u eqv side room ts
  · exact wp_mono hany (fun _ _ _ => trivial) fun _ _ _ _ _ => hstarved
  · by_cases ho : (u side).Obliging fun _ => True
    · refine wp_mono (wp_assign_solvent hc hl hcopy (hf.solvent ho) hp hi (fun t ht hbound hstuck => ?_) op)
        (fun _ _ _ => trivial) fun _ _ h hexhausted => absurd hexhausted h.not_exhausted
      exact hstarved ⟨t, ht, hbound, hstuck⟩
    · exact wp_mono hany (fun _ _ _ => trivial) fun _ _ _ _ h => absurd h ho

end Assign

section Calls

variable {I : (side : Side) → (b side).Table → Prop} {s s' : Sets b × World W T Unit} {es : List (Event b)}

theorem forall_update (hi : ∀ side, I side (ts side)) {t : (b side).Table} (h : I side t) (side' : Side) :
    I side' (Function.update ts side t side') := by
  refine forall_side (P := fun side' => I side' (Function.update ts side t side')) side ?_ ?_ side'
  · rwa [Function.update_self]
  · rw [update_other]
    exact hi side.other

variable (hc : ∀ side, Contract (R side) (u side)) (hcopy : ∀ side, (u side).Copying eqv copyKey copyValue)
  (hm : ∀ side, Maintains (R side) (u side) (fun _ => True) Room.any (I side))
include hc hcopy hm

theorem wp_perform_kept (hp : ∀ side, Proper (R side) (u side) eqv (ts side)) (hi : ∀ side, I side (ts side))
    (call : Call T) :
    wp (perform b u side call) (fun _ s => ∀ side, I side (s.1 side)) (fun _ s => ∀ side, I side (s.1 side)) (ts, w) := by
  have hw := (hp side).stores.wf
  cases call with
  | alone op =>
    rw [perform, wp_bind, wp_within]
    refine wp_mono (upheld_step (hm side) hw (hi side) (hc side) (Room.affords_any _ _ op)) ?_ ?_
    · exact fun _ s h => forall_update hi h
    · exact fun _ s h => forall_update hi h.2
  | getOrInsertClone value =>
    rw [perform, wp_bind, wp_within]
    refine wp_mono (upheld_getOrInsertClone (hc side) (hm side) hw (hi side) (hcopy side) (fun h => h.2 trivial) value) ?_ ?_
    · exact fun _ s h => forall_update hi h
    · exact fun _ s h => forall_update hi h.2
  | retain present =>
    have hother := (hp side.other).stores.wf
    have hboth : ∀ s : Sets b × World W T Unit, Beside (I side) (ts side.other) s.1 → ∀ side, I side (s.1 side) := by
      intro s hs
      refine forall_side (P := fun side => I side (s.1 side)) side hs.1 ?_
      rw [hs.2]
      exact hi side.other
    have hwithin := within_retain (hm side) fun value =>
      within_testMembership (I := I side) (hc side.other) hother (hm side).tolerates present value
    exact wp_mono (hwithin (ts, w) ⟨hi side, rfl⟩) (fun _ s h => hboth s h) fun _ s h => hboth s h.2

theorem kept_of_calls (hl : ∀ side, (u side).Lawful (hash side) eqv) (h : Calls b u s es s')
    (hes : ∀ e ∈ es, e.Meets b u R hash eqv) (hp : ∀ side, Proper (R side) (u side) eqv (s.1 side))
    (hi : ∀ side, I side (s.1 side)) : ∀ side, I side (s'.1 side) := by
  induction h with
  | nil => exact hi
  | beside _ _ ih => exact ih hes
  | @call s' s'' es side call r h hstep habort ih =>
    have hes' := fun e he => hes e (List.mem_append_left _ he)
    have hwp : wp (perform b u side call) (fun _ s => ∀ side, I side (s.1 side)) (fun _ s => ∀ side, I side (s.1 side)) s' :=
      wp_perform_kept hc hcopy hm (proper_of_calls hc hl hcopy h hes' hp) (ih hes') call
    cases r with
    | ok r => exact (wp_of_ok hstep).mp hwp
    | error p => exact (wp_of_error hstep).mp hwp

end Calls

end HashSet

end Opthash
