import Opthash.Raw.Upkeep
import Opthash.Shell.Invariance

namespace Opthash.Elastic

open Exec ElasticTable HashMap

variable {W K V α β : Type} {group : GroupBackend} {u : User W K V} {key : K} {value : V} {x : UInt64}

section Internal

/-- Fails at most on one of the code's own assertions. -/
def Internal (c : Except Panic α) : Prop := ∀ e, c = .error e → ∃ text, e = .internal text ∧ e.exhausts = false

theorem internal_ok (a : α) : Internal (.ok a) := fun _ h => by cases h

theorem internal_error {text : String} (htext : (Panic.internal text).exhausts = false) :
    Internal (.error (.internal text) : Except Panic α) := by
  intro e h
  cases h
  exact ⟨text, rfl, htext⟩

theorem Internal.bind {c : Except Panic α} {f : α → Except Panic β} (hc : Internal c) (hf : ∀ a, Internal (f a)) :
    Internal (c >>= f) := by
  intro e h
  cases hrun : c with
  | error e' =>
    rw [hrun] at h
    cases h
    exact hc e hrun
  | ok a =>
    rw [hrun] at h
    exact hf a e h

theorem Internal.mapM {f : α → Except Panic β} (hf : ∀ a, Internal (f a)) (l : List α) : Internal (l.mapM f) := by
  induction l with
  | nil => exact internal_ok []
  | cons a l ih =>
    rw [List.mapM_cons]
    exact (hf a).bind fun b => ih.bind fun bs => internal_ok _

theorem internal_phiAt (paperLevel paperProbe : Nat) : Internal (phiAt paperLevel paperProbe) := by
  unfold phiAt
  split
  · exact internal_ok _
  · exact internal_error rfl

theorem internal_firstPaperProbeAfterFrom (paperLevel position fuel lower upper : Nat) :
    Internal (firstPaperProbeAfterFrom paperLevel position fuel lower upper) := by
  induction fuel generalizing lower upper with
  | zero => exact internal_ok lower
  | succ fuel ih =>
    rw [firstPaperProbeAfterFrom]
    by_cases hlt : lower < upper
    · rw [if_pos hlt]
      refine (internal_phiAt _ _).bind fun phi => ?_
      by_cases hphi : phi ≤ position
      · rw [if_pos hphi]
        exact ih _ _
      · rw [if_neg hphi]
        exact ih _ _
    · rw [if_neg hlt]
      exact internal_ok lower

theorem internal_forEachPhiRouteFrom {visit : Nat → Nat → Except Panic α} (hvisit : ∀ probe phi, Internal (visit probe phi))
    (paperLevel positionCap fuel paperProbe : Nat) :
    Internal (forEachPhiRouteFrom paperLevel positionCap visit fuel paperProbe) := by
  induction fuel generalizing paperProbe with
  | zero => exact internal_ok []
  | succ fuel ih =>
    rw [forEachPhiRouteFrom]
    by_cases hcap : paperProbe ≤ uniformSearchCap
    · rw [if_pos hcap]
      refine (internal_phiAt _ _).bind fun phi => ?_
      by_cases hphi : phi > positionCap
      · rw [if_pos hphi]
        exact internal_ok []
      · rw [if_neg hphi]
        exact (hvisit _ _).bind fun visited => (ih _).bind fun rest => internal_ok _
    · rw [if_neg hcap]
      exact internal_ok []

theorem internal_packRoute (level paperProbe phi : Nat) : Internal (packRoute level paperProbe phi) := by
  unfold packRoute
  by_cases hlimit : paperProbe - 1 ≥ queryProbeLimit
  · rw [if_pos hlimit]
    exact internal_error rfl
  · rw [if_neg hlimit]
    cases Probe.tryPackElasticCounter level (paperProbe - 1) 0 with
    | none => exact internal_error rfl
    | some counterBase =>
      dsimp only
      by_cases hphi : phi > u32Max
      · rw [if_pos hphi]
        exact internal_error rfl
      · rw [if_neg hphi]
        exact internal_ok _

theorem internal_extendProbeSchedule (t : ElasticTable K V) (highWater : Nat) : Internal (t.extendProbeSchedule highWater) := by
  unfold extendProbeSchedule
  by_cases hcap : highWater > queryPositionCap
  · rw [if_pos hcap]
    exact internal_error rfl
  · rw [if_neg hcap]
    by_cases hknown : highWater ≤ t.priorHighWater.toNat
    · rw [if_pos hknown]
      exact internal_ok t
    · rw [if_neg hknown]
      refine (Internal.mapM (fun level => ?_) _).bind fun routes => internal_ok _
      exact (internal_firstPaperProbeAfterFrom _ _ _ _ _).bind fun fromProbe =>
        internal_forEachPhiRouteFrom (internal_packRoute level) _ _ _ _

theorem extendProbeSchedule_eq {t t' : ElasticTable K V} {highWater : Nat} (h : t.extendProbeSchedule highWater = .ok t') :
    t' = { t with probeHighWater := t'.probeHighWater, probeSchedule := t'.probeSchedule } := by
  unfold extendProbeSchedule at h
  by_cases hcap : highWater > queryPositionCap
  · rw [if_pos hcap] at h
    cases h
  · rw [if_neg hcap] at h
    by_cases hknown : highWater ≤ t.priorHighWater.toNat
    · rw [if_pos hknown] at h
      cases h
      rfl
    · rw [if_neg hknown] at h
      obtain ⟨routes, -, h⟩ := bind_ok h
      cases h
      rfl

end Internal

namespace ElasticTable

structure Written (I : ElasticTable K V → Prop) : Prop where
  schedule : ∀ {t} scheduler, I t → I { t with scheduler }
  routes : ∀ {t} probeHighWater probeSchedule, I t → I { t with probeHighWater, probeSchedule }
  write : ∀ {t} k v prepared fingerprint level slot, I t → I (t.writeNewEntry k v prepared fingerprint level slot)

namespace Written

variable {E : Panic → Prop} {I : ElasticTable K V → Prop} (h : Written I)
  (hinternal : ∀ text, (Panic.internal text).exhausts = false → E (.internal text))
include h

theorem within_currentTarget : Within E I (currentTarget : Exec Panic (ElasticTable K V) _) :=
  fun _ ht => h.schedule _ ht

include hinternal

theorem within_preparePlacement (placement : ExactPlacement) :
    Within E I (preparePlacement placement : Exec Panic (ElasticTable K V) _) := by
  intro t ht
  rw [preparePlacement, wp_bind, wp_get, wp_bind]
  cases hext : t.extendProbeSchedule placement.phi with
  | error e =>
    obtain ⟨text, rfl, htext⟩ := internal_extendProbeSchedule t placement.phi e hext
    exact ⟨hinternal text htext, ht⟩
  | ok t' =>
    change I t'
    rw [extendProbeSchedule_eq hext]
    exact h.routes _ _ ht

theorem within_prepareExceptional : Within E I (prepareExceptional : Exec Panic (ElasticTable K V) _) := by
  refine .get_bind fun t _ => ?_
  refine Within.bind (.expect (hinternal _ rfl) _) fun loc => ?_
  exact Within.bind (.modify fun _ => h.routes _ _) fun _ => .pure _

theorem within_placeUnique (e : K × V) (x : UInt64) : Within E I (placeUnique e x) := by
  refine h.within_currentTarget.bind fun target => ?_
  refine .get_bind fun t _ => ?_
  dsimp only
  cases t.chooseSlotForNewKey (PreparedElasticKey.new x).probe target with
  | some placement =>
    refine (h.within_preparePlacement hinternal placement).bind fun loc => .pure_bind ?_
    dsimp only
    exact Within.bind (.modify fun _ => h.write _ _ _ _ _ _) fun _ => .pure _
  | none =>
    refine (h.within_prepareExceptional hinternal).bind fun loc => .pure_bind ?_
    dsimp only
    exact Within.bind (.modify fun _ => h.write _ _ _ _ _ _) fun _ => .pure _

end Written

def Resizes (group : GroupBackend) (u : User W K V) (E : Panic → Prop) (I : ElasticTable K V → Prop) (t : ElasticTable K V)
    (slots : Nat) : Prop :=
  ∀ transition w, Upheld E I (resizeWithTransition group u slots transition) t w

/-- `I` of a table is kept by whatever a method other than a delete does to it, short of a change of its size. -/
structure Upkept (group : GroupBackend) (u : User W K V) (E : Panic → Prop) (I : ElasticTable K V → Prop) : Prop
    extends Written I where
  tolerates : Panic.Tolerates E
  replaceValue : ∀ {t} loc k v, I t → I (t.replaceValue loc k v)
  recordMembership : ∀ {t} prepared level, I t → I (t.recordMembership prepared level)
  clearMembership : ∀ {t}, I t → I t.clearMembership
  recover : ∀ {t}, I t → I { t with epoch := t.epoch.notePlacementRecovery }
  rebuild : ∀ {t}, I t → Resizes group u E I t t.totalSlots

def nextSlots (group : GroupBackend) (t : ElasticTable K V) : Nat :=
  if t.totalSlots = 0 then group.initialCapacity else saturatingUsize (t.totalSlots * 2)

def Grows (group : GroupBackend) (u : User W K V) (E : Panic → Prop) (I : ElasticTable K V → Prop) (t : ElasticTable K V) :
    Prop := t.maxInsertions ≤ t.len → Resizes group u E I t (t.nextSlots group)

namespace Upkept

variable {E : Panic → Prop} {I : ElasticTable K V → Prop} (h : Upkept group u E I)
include h

theorem within_exceptional : Within E (fun s => I s.1) (onFst prepareExceptional : Run (ElasticTable K V) W K V _) :=
  .onFst fun _ => h.within_prepareExceptional h.tolerates.internal

theorem within_placement (placement : ExactPlacement) :
    Within E (fun s => I s.1) (onFst (preparePlacement placement) : Run (ElasticTable K V) W K V _) :=
  .onFst fun _ => h.within_preparePlacement h.tolerates.internal placement

theorem within_target : Within E (fun s => I s.1) (onFst currentTarget : Run (ElasticTable K V) W K V _) :=
  .onFst fun _ => h.within_currentTarget

theorem within_placeAfterTargetFailure (prepared : PreparedElasticKey) (target : BatchTarget) :
    Within E (fun s => I s.1) (placeAfterTargetFailure group u prepared target : Run (ElasticTable K V) W K V _) := by
  rintro ⟨t, w⟩ hi
  rw [placeAfterTargetFailure, wp_bind, wp_get]
  dsimp only
  cases t.chooseSlotOnOtherTargets prepared.probe target with
  | some placement => exact h.within_placement placement (t, w) hi
  | none =>
    dsimp only
    rw [wp_ite]
    refine ⟨fun _ => ?_, fun _ => ?_⟩
    · exact Within.bind (.modify fun _ => h.recover) (fun _ => h.within_exceptional) (t, w) hi
    · refine (h.rebuild hi .placementRecovery w).bind fun _ => h.within_target.bind fun target => ?_
      refine .get_bind fun s _ => ?_
      obtain ⟨t, w⟩ := s
      dsimp only
      cases t.chooseSlotForNewKey prepared.probe target with
      | some placement => exact h.within_placement placement
      | none => exact h.within_exceptional

section Insert

variable {t : ElasticTable K V} {w : World W K V} (hi : I t) (hgrow : Grows group u E I t)
include hi hgrow

theorem upheld_prepareInsert (prepared : PreparedElasticKey) : Upheld E I (prepareInsert group u prepared) t w := by
  rw [Upheld, prepareInsert, wp_bind, wp_get]
  dsimp only
  rw [wp_ite]
  suffices hchoose : Within E (fun s : ElasticTable K V × World W K V => I s.1) _ from
    ⟨fun hfull => (hgrow hfull .growth w).bind fun _ => hchoose, fun _ => hchoose (t, w) hi⟩
  refine h.within_target.bind fun target => .get_bind fun s _ => ?_
  obtain ⟨t, w⟩ := s
  dsimp only
  cases t.chooseSlotForNewKey prepared.probe target with
  | some placement => exact h.within_placement placement
  | none => exact h.within_placeAfterTargetFailure prepared target

theorem upheld_insertForVacantEntryPrepared (prepared : PreparedElasticKey) (fingerprint : UInt8) :
    Upheld E I (insertForVacantEntryPrepared group u key value prepared fingerprint) t w := by
  refine ((h.upheld_prepareInsert hi hgrow prepared).owned h.tolerates).bind fun _ => ?_
  exact Within.bind (.modify fun _ => h.write _ _ _ _ _ _) fun _ => .pure _

omit hgrow in
theorem upheld_insert (hr : t.Ready) (hgrow : (reading group).Refuted u t key x → Grows group u E I t) :
    Upheld E I (insert group u key value x) t w := by
  have hstable : u.EqStable fun _ => True := fun _ _ _ _ => trivial
  have hfind : Reads E (find u key x) t w fun found => found = none → (reading group).Refuted u t key x := by
    refine .of_wp (wp_find hr.toWf hstable ⟨rfl, rfl, trivial⟩) ?_ (fun _ _ h' => ⟨h.tolerates.unwound h'.1, h'.2.1⟩)
    rintro (_ | loc) s ⟨hs, hfound⟩
    · exact ⟨hs.table, fun _ => hfound⟩
    · exact ⟨hs.table, fun h => by cases h⟩
  refine (hfind.guarded h.tolerates _).bind hi fun found w' hfound => ?_
  cases found with
  | some loc =>
    have hdrop : ∀ old, Within E (fun s : ElasticTable K V × World W K V => I s.1)
        (onSnd (Exec.guarded .abort (u.dropK key) (u.dropV old))) :=
      fun old => .aside (User.within_dropBoth h.tolerates key old)
    refine Within.bind (.get_bind fun s _ => ?_) (fun old => (hdrop old).bind fun _ => .pure _) (t, w') hi
    obtain ⟨t, w⟩ := s
    refine Within.bind (.expect (h.tolerates.internal _ rfl) _) fun entry => ?_
    exact Within.bind (.modify fun _ => h.replaceValue _ _ _) fun _ => .pure _
  | none => exact (h.upheld_insertForVacantEntryPrepared hi (hgrow (hfound rfl)) _ _).bind fun _ => .pure _

end Insert

theorem within_settleAfterDeletes (needsCleanup : Bool) :
    Within E (fun s => I s.1) (settleAfterDeletes group u needsCleanup : Run (ElasticTable K V) W K V Unit) := by
  have hrefresh : Within E (fun s => I s.1) (refreshMembership group u : Run (ElasticTable K V) W K V Unit) := by
    refine Within.bind (.modify fun _ => h.clearMembership) fun _ => .get_bind fun s _ => ?_
    obtain ⟨t, w⟩ := s
    refine .forM (fun level => within_forOccupied (fun _ slot => .get_bind fun s _ => ?_) _) _
    obtain ⟨t, w⟩ := s
    refine Within.bind (.expect (h.tolerates.internal _ rfl) _) fun entry => ?_
    refine Within.bind (.aside (User.within_hash h.tolerates entry.1)) fun x => .modify fun _ => ?_
    exact h.recordMembership _ _
  rintro ⟨t, w⟩ hi
  rw [settleAfterDeletes, wp_bind, wp_get]
  dsimp only
  rw [wp_ite, wp_ite]
  exact ⟨fun _ => h.rebuild hi .tombstoneCleanup w, fun _ => ⟨fun _ => hrefresh (t, w) hi, fun _ => hi⟩⟩

theorem within_finishDeferredRemovals :
    Within E (fun s => I s.1) (finishDeferredRemovals group u : Run (ElasticTable K V) W K V Unit) := by
  refine .get_bind fun s _ => ?_
  obtain ⟨t, w⟩ := s
  exact h.within_settleAfterDeletes _

end Upkept

theorem upheld_shrinkTo {I : ElasticTable K V → Prop} {t : ElasticTable K V} {minCapacity : Nat} (hi : I t)
    (hresize : ∀ slots, Resizes group u (fun _ => True) I t slots) (w : World W K V) :
    Upheld (fun _ => True) I (shrinkTo group u minCapacity) t w := by
  rw [Upheld, shrinkTo, wp_bind, wp_get]
  dsimp only
  rw [wp_ite]
  refine ⟨fun _ => ?_, fun _ => ?_⟩
  · rw [wp_ite]
    exact ⟨fun _ => hresize 0 .explicitResize w, fun _ => hi⟩
  · rw [wp_bind, wp_expect]
    refine ⟨fun newCapacity _ => ?_, fun _ => ⟨trivial, hi⟩⟩
    rw [wp_ite]
    exact ⟨fun _ => hi, fun _ => hresize newCapacity .explicitResize w⟩

theorem keeping_of_resizes {I : ElasticTable K V → Prop} (h : Upkept group u (fun _ => True) I)
    (hresize : ∀ {t}, I t → ∀ slots, Resizes group u (fun _ => True) I t slots)
    (htryResize : ∀ {t}, I t → ∀ slots w, Upheld (fun _ => True) I (tryResize group u slots) t w)
    (hclone : ∀ {t}, I t → ∀ w : World W K V, wp (cloneTable group u t) (fun t' _ => I t') (fun _ _ => True) w) :
    Keeping (b := Elastic.backend group u) (reading group) u (fun _ => True) Room.any I where
  tolerates := h.tolerates
  insertForVacant := fun hi _ _ _ _ _ => h.upheld_insertForVacantEntryPrepared hi (fun _ => hresize hi _) _ _
  insert := fun hr hi _ _ _ _ _ => h.upheld_insert hi hr fun _ _ => hresize hi _
  writeValue := fun loc _ _ _ => h.replaceValue loc _ _
  finishDeferredRemovals := h.within_finishDeferredRemovals
  resize := fun hi _ w => .expect_bind hi (fun _ => trivial) fun slots _ => hresize hi slots .explicitResize w
  tryResize := fun hi _ w => htryResize hi _ w
  shrinkTo := fun _ hi _ w => upheld_shrinkTo hi (hresize hi) w
  cloneTable := fun _ hi w => hclone hi w

theorem wp_cloneTable_arena {t : ElasticTable K V} {w : World W K V} :
    wp (cloneTable group u t) (fun t' _ => t' = { t with levels := t'.levels, membership := t'.membership })
      (fun _ _ => True) w := by
  rw [cloneTable, wp_bind]
  refine wp_mono (wp_self _ w) (fun _ w₁ _ => ?_) (fun _ _ _ => trivial)
  rw [wp_bind]
  refine wp_mono (wp_self _ w₁) (fun res w₂ _ => ?_) (fun _ _ _ => trivial)
  cases res with
  | error e => exact trivial
  | ok _ =>
    dsimp only
    rw [wp_bind]
    refine wp_mono (wp_self _ w₂) (fun caps w₃ _ => ?_) (fun _ _ _ => trivial)
    rw [wp_bind]
    refine wp_mono (wp_self _ w₃) (fun res w₄ _ => ?_) (fun _ _ _ => trivial)
    rcases res with e | ⟨levels, membership⟩
    · exact trivial
    · dsimp only
      rw [wp_bind]
      refine wp_mono (wp_self _ w₄) (fun p w₅ _ => ?_) (fun _ _ _ => trivial)
      obtain ⟨-, cloned⟩ := p
      dsimp only
      rw [wp_bind]
      exact wp_mono (wp_self _ w₅) (fun _ _ _ => rfl) (fun _ _ _ => trivial)

end ElasticTable

end Opthash.Elastic
