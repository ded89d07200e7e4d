import Opthash.Funnel.Upkept
import Opthash.Shell.Epochs

namespace Opthash.Funnel

open Exec HashMap

variable {W K V : Type} {group : GroupBackend} {u : User W K V} {v : EpochView} {t : FunnelTable K V} {w : World W K V}

namespace FunnelTable

def From (v : EpochView) (t : FunnelTable K V) : Prop := Since v t.epoch

theorem from_tryResizeTo (shape : FunnelShape) (transition : EpochTransition) :
    Within (fun _ => True) (fun s => s.1.From v)
      (tryResizeTo group u shape transition : Run (FunnelTable K V) W K V _) := by
  refine Within.bind (.beside _) fun res => ?_
  rcases res with e | ⟨storage, membership⟩
  · exact .pure _
  · refine .get_bind fun s _ => ?_
    obtain ⟨t, w⟩ := s
    refine (Rebuildable.within_rebuild (fun _ _ => trivial) (fun _ => id) (fun _ _ _ => id) (fun k =>
      .beside _) fun e x => ?_).bind fun recovered => ?_
    · exact .onFst fun _ => within_placeUnique (fun _ _ => trivial) (fun _ _ _ _ _ _ _ => id) e x
    · exact Within.bind (.modify fun _ h => h.boundary (EpochState.view_startEpoch _ _ _)) fun _ => .pure _

theorem from_resizeWithTransition (slots : Nat) (transition : EpochTransition) :
    Within (fun _ => True) (fun s => s.1.From v)
      (resizeWithTransition group u slots transition : Run (FunnelTable K V) W K V _) := by
  refine .get_bind fun s _ => ?_
  obtain ⟨t, w⟩ := s
  dsimp only
  cases FunnelShape.fromSlots slots t.reserveFraction with
  | error e => exact .raise_bind trivial
  | ok shape =>
    refine .pure_bind ((from_tryResizeTo shape transition).bind fun result => ?_)
    cases result with
    | ok _ => exact .pure _
    | error e =>
      cases funnelLayout group u.slotSize u.slotAlign shape.n with
      | error e => exact .raise_bind trivial
      | ok layout => exact .pure_bind (.raise trivial)

theorem from_tryResize (slots : Nat) :
    Within (fun _ => True) (fun s => s.1.From v) (tryResize group u slots : Run (FunnelTable K V) W K V _) := by
  refine .get_bind fun s _ => ?_
  obtain ⟨t, w⟩ := s
  dsimp only
  cases FunnelShape.fromSlots slots t.reserveFraction with
  | error e => exact .pure _
  | ok shape => exact from_tryResizeTo shape .explicitResize

theorem upkept_from (group : GroupBackend) (u : User W K V) (v : EpochView) :
    Upkept group u (fun _ => True) (From v : FunnelTable K V → Prop) where
  tolerates := Panic.tolerates_any
  place := fun _ _ _ _ _ _ => id
  replaceValue := fun _ _ _ => id
  recordMembership := fun _ _ => id
  clearMembership := id
  recover := fun h => h.same (EpochState.view_notePlacementRecovery _)
  restart := fun h => h.boundary (EpochState.view_startWithPlacementRecovery _ _)
  rebuild := fun h transition w => from_resizeWithTransition _ transition (_, w) h

theorem from_remove (slot : Nat) :
    wp (remove group u slot) (fun _ s => s.1.From t.epoch.noteDelete.view) (fun _ _ => True) (t, w) := by
  rw [remove, wp_bind, wp_get]
  dsimp only
  rw [wp_bind, Region.getRef, wp_expect]
  refine ⟨fun entry _ => ?_, fun _ => trivial⟩
  rw [wp_bind, wp_modify, wp_bind]
  have hsettle := (upkept_from group u t.epoch.noteDelete.view).within_settleAfterDeletes
  refine wp_mono (User.within_owned Panic.tolerates_any hsettle (t.extractFinish slot, w) (.refl _)) ?_ (fun _ _ _ => trivial)
  exact fun _ _ => id

theorem epoch_clear :
    wp (clear group u) (fun _ s => s.1.epoch = t.epoch.start .clear) (fun _ _ => True) (t, w) := by
  have hwipe : ∀ s : FunnelTable K V × World W K V, s.1.epoch = t.epoch →
      wp (Exec.modify fun s => (s.1.wipeAll, s.2) : Run (FunnelTable K V) W K V Unit)
        (fun _ s => s.1.epoch = t.epoch.start .clear) (fun _ _ => True) s := by
    rintro ⟨t', w'⟩ h
    exact congrArg (EpochState.start · .clear) h
  rw [clear, wp_ite]
  refine ⟨fun _ => ?_, fun _ => hwipe _ rfl⟩
  rw [wp_bind]
  refine wp_mono (within_forOccupied (I := fun s => s.1.epoch = t.epoch) (E := fun _ => True) (fun _ slot =>
    .get_bind fun s _ => ?_) _ (t, w) rfl) (fun _ s h => hwipe s h) (fun _ _ _ => trivial)
  obtain ⟨t', w'⟩ := s
  refine Within.bind (.expect trivial _) fun entry => ?_
  exact Within.bind (.modify fun _ => id) fun _ => .beside (I := fun t' : FunnelTable K V => t'.epoch = t.epoch) _

theorem epoch_cloneTable : wp (cloneTable group u t) (fun t' _ => t'.epoch = t.epoch) (fun _ _ => True) w := by
  rw [cloneTable, wp_bind]
  refine wp_mono (wp_self _ w) (fun _ w₁ _ => ?_) (fun _ _ _ => trivial)
  rw [wp_bind]
  refine wp_mono (wp_self _ w₁) (fun res w₂ _ => ?_) (fun _ _ _ => trivial)
  cases res with
  | error e => exact trivial
  | ok cloned =>
    dsimp only
    rw [wp_bind]
    refine wp_mono (wp_self _ w₂) (fun p w₃ _ => ?_) (fun _ _ _ => trivial)
    obtain ⟨-, storage⟩ := p
    dsimp only
    rw [wp_bind]
    exact wp_mono (wp_self _ w₃) (fun _ _ _ => rfl) (fun _ _ _ => trivial)

theorem dated (group : GroupBackend) (u : User W K V) :
    Dated (b := Funnel.backend group u) (reading group) u FunnelTable.epoch where
  keeping := fun v => keeping_of_resizes (upkept_from group u v)
    (fun h _ transition w => from_resizeWithTransition _ transition (_, w) h) (fun h _ w => from_tryResize _ (_, w) h)
    fun h _ => wp_mono epoch_cloneTable (fun _ _ heq => heq ▸ h) (fun _ _ _ => trivial)
  writeValue := fun _ _ _ _ => rfl
  extractFinish := fun _ _ => rfl
  tombstoneSlot := fun _ _ => rfl
  remove := fun slot _ _ => from_remove slot
  clear := fun _ _ => epoch_clear
  wipeAll := fun _ => rfl

end FunnelTable

theorem Initial.epoch {t : FunnelTable K V} (h : Initial group u t) : t.epoch = .initial := by
  rw [h.shape.2.2]
  rfl

end Opthash.Funnel
