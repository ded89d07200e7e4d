import Opthash.Raw.Upkeep
import Opthash.Shell.Invariance

namespace Opthash.Funnel

open Exec HashMap

variable {W K V : Type} {group : GroupBackend} {u : User W K V} {key : K} {value : V} {x : UInt64}

namespace FunnelTable

/-- The slot counts the methods resize a table to. -/
inductive Proposes (t : FunnelTable K V) : Nat → Prop
  | same : Proposes t t.shape.n
  | none : Proposes t 0
  | budget {requested : Nat} {shape : FunnelShape}
      (h : FunnelShape.forInsertBudget requested t.reserveFraction = .ok shape) : Proposes t shape.n

theorem proposes_of_nextGrowthSlots {t : FunnelTable K V} {needed slots : Nat} (h : t.nextGrowthSlots needed = some slots) :
    t.Proposes slots := by
  unfold nextGrowthSlots at h
  by_cases hlarge : needed ≥ isizeMax
  · rw [if_pos hlarge] at h
    cases h
  · rw [if_neg hlarge] at h
    cases hbudget : FunnelShape.forInsertBudget (max needed (saturatingUsize (t.shape.maxInsertions * 2)))
      t.reserveFraction with
    | error e =>
      simp only [hbudget] at h
      cases h
    | ok shape =>
      simp only [hbudget] at h
      cases h
      exact .budget hbudget

theorem within_placeUnique {E : Panic → Prop} {I : FunnelTable K V → Prop}
    (hinternal : ∀ text, (Panic.internal text).exhausts = false → E (.internal text))
    (hplace : ∀ t vacancy k v m fingerprint exceptional, I t → I (t.placeNewEntry vacancy k v m fingerprint exceptional))
    (e : K × V) (x : UInt64) : Within E I (placeUnique group e x) := by
  refine .get_bind fun t _ => Within.bind ?_ fun p => ?_
  · cases t.searchVacancy group (Probe.prepareFunnel t.probeSeed x) with
    | some vacancy => exact .pure _
    | none => exact Within.bind (.expect (hinternal _ rfl) _) fun slot => .pure _
  · obtain ⟨vacancy, exceptional⟩ := p
    exact Within.bind (.modify fun _ => hplace _ _ _ _ _ _ _) fun _ => .pure _

def Resizes (group : GroupBackend) (u : User W K V) (E : Panic → Prop) (I : FunnelTable K V → Prop) (t : FunnelTable K V)
    (slots : Nat) : Prop :=
  ∀ transition w, Upheld E I (resizeWithTransition group u slots transition) t w

/-- `I` of a table is kept by whatever a method other than a delete does to it, short of a change of its size. -/
structure Upkept (group : GroupBackend) (u : User W K V) (E : Panic → Prop) (I : FunnelTable K V → Prop) : Prop where
  tolerates : Panic.Tolerates E
  place : ∀ {t} vacancy k v m fingerprint exceptional, I t → I (t.placeNewEntry vacancy k v m fingerprint exceptional)
  replaceValue : ∀ {t} slot k v, I t → I (t.replaceValue slot k v)
  recordMembership : ∀ {t} m bit, I t → I (t.recordMembership m bit)
  clearMembership : ∀ {t}, I t → I t.clearMembership
  recover : ∀ {t}, I t → I { t with epoch := t.epoch.notePlacementRecovery }
  restart : ∀ {t}, I t → I { t with epoch := t.epoch.startWithPlacementRecovery .placementRecovery }
  rebuild : ∀ {t}, I t → Resizes group u E I t t.shape.n

def Grows (group : GroupBackend) (u : User W K V) (E : Panic → Prop) (I : FunnelTable K V → Prop) (t : FunnelTable K V) :
    Prop :=
  t.shape.maxInsertions ≤ t.len → ∀ w, Upheld E I (growForNextInsert group u) t w

namespace Upkept

variable {E : Panic → Prop} {I : FunnelTable K V → Prop} (h : Upkept group u E I)
include h

section Insert

variable {t : FunnelTable K V} {w : World W K V} (hi : I t) (hgrow : Grows group u E I t)
include hi hgrow

omit h in
theorem upheld_prepareVacantInsert :
    Upheld E I (prepareVacantInsert group u) t w := by
  rw [Upheld, prepareVacantInsert, wp_bind, wp_get]
  dsimp only
  rw [wp_ite, wp_bind]
  exact ⟨fun hfull => hgrow hfull w, fun _ => hi⟩

omit hi hgrow in
theorem within_rebuildForPlacement (x : UInt64) :
    Within E (fun s => I s.1)
      (rebuildForPlacement group u x : Run (FunnelTable K V) W K V (Option Vacancy × MembershipSlot)) := by
  rintro ⟨t, w⟩ hi
  rw [rebuildForPlacement, wp_bind, wp_get]
  dsimp only
  rw [wp_bind]
  exact wp_mono (h.rebuild hi .placementRecovery w) (fun _ _ hi => hi) (fun _ _ => id)

omit hi hgrow in
theorem within_placeAbsentAfterSearch (membership : MembershipSlot) (vacancy : Option Vacancy) :
    Within E (fun s => I s.1)
      (placeAbsentAfterSearch group u key value x membership vacancy : Run (FunnelTable K V) W K V Nat) := by
  have hresolve : ∀ (rebuilt : Bool) (p : Option Vacancy × MembershipSlot),
      Within E (fun s => I s.1) (do
        let s ← Exec.get
        let found ← s.1.resolveVacancy p.1
        pure (p.2, rebuilt, found) : Run (FunnelTable K V) W K V _) := by
    intro rebuilt p
    refine .get_bind fun s _ => ?_
    obtain ⟨t, w⟩ := s
    refine Within.bind ?_ fun _ => .pure _
    cases p.1 with
    | some vacancy => exact .pure _
    | none => exact Within.bind (.expect (h.tolerates.internal _ rfl) _) fun slot => .pure _
  refine (User.within_owned h.tolerates (.get_bind fun s hs => ?_)).bind fun found => ?_
  · obtain ⟨t, w⟩ := s
    refine .ite (fun _ => ?_) fun _ => .pure_bind (hresolve (vacancy.isNone && !t.exceptionalPlacement) (vacancy, membership))
    exact (h.within_rebuildForPlacement x).bind fun p => hresolve _ p
  · obtain ⟨membership, rebuilt, vacancy, exceptional⟩ := found
    refine Within.bind (.modify fun s hs => ?_) fun _ => .pure _
    dsimp only
    have hplaced := h.place vacancy key value membership (controlFingerprint x) exceptional hs
    unfold notePlacement
    split
    · exact h.recover hplaced
    · split
      · exact h.restart hplaced
      · exact hplaced

theorem upheld_insertForVacant (vacant : FunnelVacant) :
    Upheld E I (insertForVacant group u key value vacant) t w := by
  refine (Upheld.owned h.tolerates ?_).bind fun p => ?_
  · refine (upheld_prepareVacantInsert hi hgrow).bind fun grown => .get_bind fun s _ => ?_
    obtain ⟨t, w⟩ := s
    exact .pure _
  · obtain ⟨vacancy, membership⟩ := p
    exact h.within_placeAbsentAfterSearch membership vacancy

theorem upheld_vacancyForInsert (exact : Option SearchResult) :
    Upheld E I (vacancyForInsert group u x exact) t w := by
  rw [Upheld, vacancyForInsert, wp_bind, wp_get]
  dsimp only
  refine (upheld_prepareVacantInsert hi hgrow).bind fun grown => .ite (fun _ => .get_bind fun s _ => ?_) fun _ =>
    .get_bind fun s _ => ?_
  · obtain ⟨t, w⟩ := s
    exact .pure _
  · obtain ⟨t, w⟩ := s
    cases exact with
    | none => exact .pure _
    | some exact =>
      refine Within.bind ?_ fun _ => .pure _
      cases exact with
      | hit slot => exact .raise (h.tolerates.internal _ rfl)
      | vacant slot => exact .pure _
      | full => exact .pure _
      | rangeFailure => exact .pure _

omit hgrow in
theorem upheld_insert (hw : t.Wf) (hgrow : (reading group).Refuted u t key x → Grows group u E I t) :
    Upheld E I (insert group u key value x) t w := by
  have hsearch : Reads E (searchForInsert group u key x) t w fun found =>
      ∀ exact, found = .absent exact → (reading group).Refuted u t key x := by
    refine .of_wp (wp_searchForInsert hw eqStable_true ⟨rfl, rfl, trivial⟩) ?_
      (fun _ _ h' => ⟨h.tolerates.unwound h'.1, h'.2.1⟩)
    rintro (slot | exact) s ⟨hs, hfound⟩
    · exact ⟨hs.1, fun _ h => by cases h⟩
    · exact ⟨hs.1, fun _ _ => hfound.1⟩
  refine (hsearch.guarded h.tolerates _).bind hi fun found w' hfound => ?_
  cases found with
  | hit slot =>
    have hdrop : ∀ old, Within E (fun s : FunnelTable K V × World W K V => I s.1)
        (onSnd (Exec.guarded .abort (u.dropK key) (u.dropV old))) :=
      fun old => .aside (User.within_dropBoth h.tolerates key old)
    refine Within.bind (.get_bind fun s _ => ?_) (fun old => (hdrop old).bind fun _ => .pure _) (t, w') hi
    obtain ⟨t, w⟩ := s
    refine Within.bind (.expect (h.tolerates.internal _ rfl) _) fun entry => ?_
    exact Within.bind (.modify fun _ => h.replaceValue slot _ _) fun _ => .pure _
  | absent exact =>
    have hvacancy := h.upheld_vacancyForInsert (x := x) (w := w') hi (hgrow (hfound exact rfl)) exact
    refine (Upheld.owned h.tolerates hvacancy).bind fun p => ?_
    obtain ⟨vacancy, membership⟩ := p
    exact (h.within_placeAbsentAfterSearch membership vacancy).bind fun _ => .pure _

end Insert

theorem within_settleAfterDeletes :
    Within E (fun s => I s.1) (settleAfterDeletes group u : Run (FunnelTable K V) W K V Unit) := by
  have hrefresh : Within E (fun s => I s.1) (refreshMembership group u : Run (FunnelTable K V) W K V Unit) := by
    refine Within.bind (.modify fun _ => h.clearMembership) fun _ =>
      within_forOccupied (fun _ slot => .get_bind fun s _ => ?_) _
    obtain ⟨t, w⟩ := s
    refine Within.bind (.expect (h.tolerates.internal _ rfl) _) fun entry => ?_
    refine Within.bind (.aside (User.within_hash h.tolerates entry.1)) fun x => .modify fun _ => ?_
    exact h.recordMembership _ _
  rintro ⟨t, w⟩ hi
  rw [settleAfterDeletes, wp_bind, wp_get]
  dsimp only
  rw [wp_ite, wp_ite]
  exact ⟨fun _ => h.rebuild hi .tombstoneCleanup w, fun _ => ⟨fun _ => hrefresh (t, w) hi, fun _ => hi⟩⟩

end Upkept

theorem upheld_shrinkTo {I : FunnelTable K V → Prop} {t : FunnelTable K V} {minCapacity : Nat} (hi : I t)
    (hresize : ∀ slots, t.Proposes slots → Resizes group u (fun _ => True) I t slots) (w : World W K V) :
    Upheld (fun _ => True) I (shrinkTo group u minCapacity) t w := by
  rw [Upheld, shrinkTo, wp_bind, wp_get]
  dsimp only
  rw [wp_ite]
  refine ⟨fun _ => ?_, fun _ => ?_⟩
  · rw [wp_ite]
    exact ⟨fun _ => hresize 0 .none .explicitResize w, fun _ => hi⟩
  · cases hbudget : FunnelShape.forInsertBudget (max t.len minCapacity) t.reserveFraction with
    | error e => exact ⟨trivial, hi⟩
    | ok shape =>
      rw [wp_bind, orPanic, wp_pure, wp_ite]
      exact ⟨fun _ => hresize _ (.budget hbudget) .explicitResize w, fun _ => hi⟩

theorem keeping_of_resizes {I : FunnelTable K V → Prop} (h : Upkept group u (fun _ => True) I)
    (hresize : ∀ {t slots}, I t → t.Proposes slots → Resizes group u (fun _ => True) I t slots)
    (htryResize : ∀ {t slots}, I t → t.Proposes slots → ∀ w,
      Upheld (fun _ => True) I (tryResize group u slots) t w)
    (hclone : ∀ {t}, I t → ∀ w : World W K V, wp (cloneTable group u t) (fun t' _ => I t') (fun _ _ => True) w) :
    Keeping (b := Funnel.backend group u) (reading group) u (fun _ => True) Room.any I := by
  have hto : ∀ {t needed}, I t → ∀ transition w, Upheld (fun _ => True) I
      (expect .capacityOverflow (t.nextGrowthSlots needed) >>= fun slots => resizeWithTransition group u slots transition)
      t w :=
    fun hi transition w => .expect_bind hi (fun _ => trivial) fun _ hgrow =>
      hresize hi (proposes_of_nextGrowthSlots hgrow) transition w
  have hgrows : ∀ {t}, I t → Grows group u (fun _ => True) I t := fun hi _ w => hto hi .growth w
  exact {
    tolerates := h.tolerates
    insertForVacant := fun hi _ _ _ vacant _ => h.upheld_insertForVacant hi (hgrows hi) vacant
    insert := fun hw hi _ _ _ _ _ => h.upheld_insert hi hw fun _ => hgrows hi
    writeValue := fun slot _ _ _ => h.replaceValue slot _ _
    finishDeferredRemovals := h.within_settleAfterDeletes
    resize := fun hi _ w => hto hi .explicitResize w
    tryResize := fun hi hgrow w => htryResize hi (proposes_of_nextGrowthSlots hgrow) w
    shrinkTo := fun _ hi _ w => upheld_shrinkTo hi (fun _ hslots => hresize hi hslots) w
    cloneTable := fun _ hi w => hclone hi w }

end FunnelTable

end Opthash.Funnel
