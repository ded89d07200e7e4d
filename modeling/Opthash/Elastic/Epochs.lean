import Opthash.Elastic.Upkept
import Opthash.Shell.Epochs

namespace Opthash.Elastic

open Exec ElasticTable HashMap

variable {W K V : Type} {group : GroupBackend} {u : User W K V} {v : EpochView} {t : ElasticTable K V} {w : World W K V}

namespace ElasticTable

def From (v : EpochView) (t : ElasticTable K V) : Prop := Since v t.epoch

theorem written_from (v : EpochView) : Written (From v : ElasticTable K V → Prop) where
  schedule := fun _ => id
  routes := fun _ _ => id
  write := fun _ _ _ _ _ _ => id

theorem from_tryResizeTo (g : ElasticGeometry) (transition : EpochTransition) :
    Within (fun _ => True) (fun s => s.1.From v)
      (tryResizeTo group u g transition : Run (ElasticTable K V) W K V _) := by
  refine Within.bind (.beside _) fun res => ?_
  cases res with
  | error e => exact .pure _
  | ok _ =>
    refine Within.bind (.beside _) fun res => ?_
    rcases res with e | ⟨levels, membership⟩
    · exact .pure _
    · refine (Rebuildable.within_rebuild (fun _ _ => trivial) (fun _ => id) (fun _ _ _ => id) (fun k => .beside _) fun e x =>
        .onFst fun _ => (written_from v).within_placeUnique (fun _ _ => trivial) e x).bind fun recovered => ?_
      exact Within.bind (.modify fun _ h => h.boundary (EpochState.view_startEpoch _ _ _)) fun _ => .pure _

theorem from_resizeWithTransition (slots : Nat) (transition : EpochTransition) :
    Within (fun _ => True) (fun s => s.1.From v)
      (resizeWithTransition group u slots transition : Run (ElasticTable K V) W K V _) := by
  refine .get_bind fun s _ => ?_
  obtain ⟨t, w⟩ := s
  dsimp only
  cases ElasticGeometry.forSlots slots t.reserveFraction with
  | error p => exact .raise_bind trivial
  | ok geometry =>
    refine .pure_bind (Within.bind (.expect trivial _) fun g => ?_)
    refine (from_tryResizeTo g transition).bind fun res => ?_
    cases res with
    | ok _ => exact .pure _
    | error e => exact .raise trivial

theorem from_tryResize (slots : Nat) :
    Within (fun _ => True) (fun s => s.1.From v) (tryResize group u slots : Run (ElasticTable K V) W K V _) := by
  refine .get_bind fun s _ => ?_
  obtain ⟨t, w⟩ := s
  dsimp only
  cases ElasticGeometry.forSlots slots t.reserveFraction with
  | error p => exact .raise_bind trivial
  | ok geometry =>
    refine .pure_bind ?_
    cases geometry with
    | none => exact .pure _
    | some g => exact from_tryResizeTo g .explicitResize

theorem upkept_from (group : GroupBackend) (u : User W K V) (v : EpochView) :
    Upkept group u (fun _ => True) (From v : ElasticTable K V → Prop) where
  toWritten := written_from v
  tolerates := Panic.tolerates_any
  replaceValue := fun _ _ _ => id
  recordMembership := fun _ _ => id
  clearMembership := id
  recover := fun h => h.same (EpochState.view_notePlacementRecovery _)
  rebuild := fun h transition w => from_resizeWithTransition _ transition (_, w) h

theorem from_remove (loc : Nat × Nat) :
    wp (remove group u loc) (fun _ s => s.1.From t.epoch.noteDelete.view) (fun _ _ => True) (t, w) := by
  rw [remove, wp_bind, wp_get]
  dsimp only
  rw [wp_bind, Region.getRef, wp_expect]
  refine ⟨fun entry _ => ?_, fun _ => trivial⟩
  rw [wp_bind, wp_modify, wp_bind]
  refine wp_mono (User.within_owned (I := From t.epoch.noteDelete.view) Panic.tolerates_any (.get_bind fun s _ => ?_)
    (t.extractFinish loc, w) (.refl _)) (fun _ _ => id) (fun _ _ _ => trivial)
  obtain ⟨t', w'⟩ := s
  exact (upkept_from group u _).within_settleAfterDeletes _

theorem epoch_clear :
    wp (clear group u) (fun _ s => s.1.epoch = t.epoch.start .clear) (fun _ _ => True) (t, w) := by
  have hreset : ∀ level, Within (fun _ => True) (fun s : ElasticTable K V × World W K V => s.1.epoch = t.epoch)
      (drainReset group u level) := by
    intro level
    refine Within.bind (within_forOccupied (fun _ slot => .get_bind fun s _ => ?_) _) fun _ => .modify fun _ => id
    obtain ⟨t', w'⟩ := s
    refine Within.bind (.expect trivial _) fun entry => ?_
    exact Within.bind (.modify fun _ => id) fun _ => .beside (I := fun t' : ElasticTable K V => t'.epoch = t.epoch) _
  rw [clear, wp_bind, wp_get]
  dsimp only
  rw [wp_bind]
  refine wp_mono (Within.forM hreset _ (t, w) rfl) ?_ (fun _ _ _ => trivial)
  rintro _ ⟨t', w'⟩ h
  exact congrArg (EpochState.start · .clear) h

theorem dated (group : GroupBackend) (u : User W K V) :
    Dated (b := Elastic.backend group u) (reading group) u ElasticTable.epoch where
  keeping := fun v => keeping_of_resizes (upkept_from group u v)
    (fun h _ transition w => from_resizeWithTransition _ transition (_, w) h) (fun h _ w => from_tryResize _ (_, w) h)
    fun {t} h w => by
      refine wp_mono (wp_cloneTable_arena (t := t)) (fun t' _ heq => ?_) (fun _ _ _ => trivial)
      rw [heq]
      exact h
  writeValue := fun _ _ _ _ => rfl
  extractFinish := fun _ _ => rfl
  tombstoneSlot := fun _ _ => rfl
  remove := fun loc _ _ => from_remove loc
  clear := fun _ _ => epoch_clear
  wipeAll := fun _ => rfl

end ElasticTable

theorem Initial.epoch {t : ElasticTable K V} (h : Initial group u t) : t.epoch = .initial := by
  obtain ⟨capacity, r, w, w', hrun⟩ := h
  suffices hwp : wp (withCapacityAndReserve group u capacity r) (fun (t : ElasticTable K V) _ => t.epoch = .initial)
      (fun _ _ => True) w from (wp_of_ok hrun).mp hwp
  rw [withCapacityAndReserve, wp_bind]
  refine wp_mono (wp_self _ w) (fun geometry w₁ _ => ?_) (fun _ _ _ => trivial)
  rw [wp_bind, wp_expect]
  refine ⟨fun g _ => ?_, fun _ => trivial⟩
  have hnew : wp (tryFromGeometry u g r)
      (fun res _ => ∀ t : ElasticTable K V, res = .ok t → t.epoch = .initial) (fun _ _ => True) w₁ := by
    rw [tryFromGeometry, wp_bind]
    refine wp_mono (wp_self _ w₁) (fun res w₂ _ => ?_) (fun _ _ _ => trivial)
    cases res with
    | error e =>
      intro _ h
      cases h
    | ok _ =>
      dsimp only
      rw [wp_bind]
      refine wp_mono (wp_self _ w₂) (fun res w₃ _ => ?_) (fun _ _ _ => trivial)
      rcases res with e | ⟨levels, membership⟩
      · intro _ h
        cases h
      · intro _ h
        cases h
        rfl
  rw [wp_bind]
  refine wp_mono hnew (fun res w₂ hres => ?_) (fun _ _ _ => trivial)
  cases res with
  | error e => exact trivial
  | ok t => exact hres t rfl

end Opthash.Elastic
